import Mathlib

/-!
# The condition variable

`waiter.go`: a counter of waiters and a channel for one notification.  The goroutines inside `Wait`
are part of the state, each with what it goes on with: between the unlock and the `select`, in the
channel's queue of receivers, or past the `select` and not yet holding the lock.
-/

namespace CommonLib.XSync

structure Cond (W : Type) where
  -- The channel holds a notification.
  token : Bool
  waiters : Nat
  registered : List W
  -- The oldest first: a send goes to the first receiver.
  parked : List W
  -- With whether the `select` has received, or has seen the context done.
  woken : List (W × Bool)

namespace Cond

variable {W : Type}

def new : Cond W := ⟨false, 0, [], [], []⟩

/-- `w.waiters++` and the unlock. -/
def register (c : Cond W) (w : W) : Cond W :=
  { c with waiters := c.waiters + 1, registered := w :: c.registered }

/-- The non-blocking send of `Signal`. -/
def notify (c : Cond W) : Cond W :=
  match c.parked with
  | w :: rest => { c with parked := rest, woken := (w, true) :: c.woken }
  | [] => { c with token := true }

def signal (c : Cond W) : Cond W := if c.waiters > 0 then c.notify else c

/-- The waiters that have not been notified and whose `select` has not ended otherwise. -/
def pending (c : Cond W) : List W := c.registered ++ c.parked

section

variable [DecidableEq W]

/-- The `select` finds a notification in the channel. -/
def take (c : Cond W) (w : W) : Option (Cond W) :=
  if w ∈ c.registered ∧ c.token = true then
    some { c with
      token := false, registered := c.registered.erase w, woken := (w, true) :: c.woken }
  else none

/-- The `select` finds none and blocks. -/
def park (c : Cond W) (w : W) : Option (Cond W) :=
  if w ∈ c.registered ∧ c.token = false then
    some { c with registered := c.registered.erase w, parked := c.parked ++ [w] }
  else none

/-- The `select` sees that the context is done, at once or while it blocks. -/
def cancel (c : Cond W) (w : W) : Option (Cond W) :=
  if w ∈ c.registered then
    some { c with registered := c.registered.erase w, woken := (w, false) :: c.woken }
  else if w ∈ c.parked then
    some { c with parked := c.parked.erase w, woken := (w, false) :: c.woken }
  else none

/-- The lock is taken again, and `w.waiters--`. -/
def relock (c : Cond W) (w : W) (notified : Bool) : Option (Cond W) :=
  if (w, notified) ∈ c.woken then
    some { c with waiters := c.waiters - 1, woken := c.woken.erase (w, notified) }
  else none

end

/-- Everyone in `Wait`. -/
def members (c : Cond W) : Multiset W :=
  ↑c.registered + ↑c.parked + ↑(c.woken.map Prod.fst)

/-- The counter counts everyone in `Wait`, and nobody blocks beside a notification. -/
structure Sound (c : Cond W) : Prop where
  count : c.waiters = c.registered.length + c.parked.length + c.woken.length
  idle : c.parked ≠ [] → c.token = false

theorem sound_new : (new : Cond W).Sound := ⟨rfl, fun h ↦ absurd rfl h⟩

theorem Sound.pending_le {c : Cond W} (h : c.Sound) : c.pending.length ≤ c.waiters := by
  rw [pending, List.length_append, h.count]
  omega

theorem Sound.parked_eq_nil {c : Cond W} (h : c.Sound) (htoken : c.token = true) :
    c.parked = [] := by
  by_contra hne
  rw [h.idle hne] at htoken
  cases htoken

/-- A broadcast has a send for a waiter that has not been notified. -/
theorem Sound.mem_replicate {c : Cond W} (h : c.Sound) (hpending : c.pending ≠ []) {α : Type}
    (a : α) : a ∈ List.replicate c.waiters a := by
  have hpos := (List.length_pos_of_ne_nil hpending).trans_le h.pending_le
  exact List.mem_replicate.mpr ⟨hpos.ne', rfl⟩

/-- Nobody blocks who has been notified. -/
theorem Sound.not_parked {c : Cond W} (h : c.Sound) (hnotified : c.pending ≠ [] → c.token = true) :
    c.parked = [] := by
  by_contra hparked
  have hpending : c.pending ≠ [] := List.append_ne_nil_of_right_ne_nil _ hparked
  exact hparked (h.parked_eq_nil (hnotified hpending))

theorem Sound.register {c : Cond W} (h : c.Sound) (w : W) : (c.register w).Sound := by
  refine ⟨?_, h.idle⟩
  have hcount := h.count
  simp only [Cond.register, List.length_cons]
  omega

theorem Sound.notify {c : Cond W} (h : c.Sound) : c.notify.Sound := by
  have hcount := h.count
  rw [Cond.notify]
  split
  next w rest hparked =>
    rw [hparked, List.length_cons] at hcount
    refine ⟨?_, fun _ ↦ h.idle (by simp [hparked])⟩
    simp only [List.length_cons]
    omega
  next hparked => exact ⟨hcount, fun hne ↦ absurd hparked hne⟩

theorem Sound.signal {c : Cond W} (h : c.Sound) : c.signal.Sound := by
  rw [Cond.signal]
  split
  · exact h.notify
  · exact h

section

variable [DecidableEq W] {c c' : Cond W} {w : W}

theorem Sound.take (h : c.Sound) (heq : c.take w = some c') : c'.Sound := by
  rw [Cond.take, Option.ite_none_right_eq_some, Option.some.injEq] at heq
  obtain ⟨⟨hmem, htoken⟩, rfl⟩ := heq
  have hcount := h.count
  have hlen := List.length_erase_add_one hmem
  refine ⟨?_, fun hne ↦ rfl⟩
  simp only [List.length_cons]
  omega

theorem Sound.park (h : c.Sound) (heq : c.park w = some c') : c'.Sound := by
  rw [Cond.park, Option.ite_none_right_eq_some, Option.some.injEq] at heq
  obtain ⟨⟨hmem, htoken⟩, rfl⟩ := heq
  have hcount := h.count
  have hlen := List.length_erase_add_one hmem
  refine ⟨?_, fun _ ↦ htoken⟩
  simp only [List.length_append, List.length_singleton]
  omega

theorem Sound.cancel (h : c.Sound) (heq : c.cancel w = some c') : c'.Sound := by
  have hcount := h.count
  rw [Cond.cancel] at heq
  split at heq
  next hmem =>
    cases heq
    have hlen := List.length_erase_add_one hmem
    refine ⟨?_, h.idle⟩
    simp only [List.length_cons]
    omega
  next =>
    rw [Option.ite_none_right_eq_some, Option.some.injEq] at heq
    obtain ⟨hmem, rfl⟩ := heq
    have hlen := List.length_erase_add_one hmem
    refine ⟨?_, fun _ ↦ h.idle (List.ne_nil_of_mem hmem)⟩
    simp only [List.length_cons]
    omega

theorem Sound.relock {notified : Bool} (h : c.Sound) (heq : c.relock w notified = some c') :
    c'.Sound := by
  rw [Cond.relock, Option.ite_none_right_eq_some, Option.some.injEq] at heq
  obtain ⟨hmem, rfl⟩ := heq
  have hcount := h.count
  have hlen := List.length_erase_add_one hmem
  refine ⟨?_, h.idle⟩
  change c.waiters - 1 =
    c.registered.length + c.parked.length + (c.woken.erase (w, notified)).length
  omega

end

/-! ## Who is in `Wait` -/

theorem members_register (c : Cond W) (w : W) : (c.register w).members = w ::ₘ c.members := by
  simp only [members, Cond.register, ← Multiset.cons_coe, Multiset.cons_add]

theorem members_notify (c : Cond W) : c.notify.members = c.members := by
  rw [notify]
  split
  next w rest hparked =>
    simp only [members, hparked, List.map_cons, ← Multiset.cons_coe, Multiset.add_cons,
      Multiset.cons_add]
  next => rfl

theorem members_signal (c : Cond W) : c.signal.members = c.members := by
  rw [signal]
  split
  · exact members_notify c
  · rfl

theorem coe_eq_cons_erase {α : Type} [BEq α] [LawfulBEq α] {l : List α} {a : α} (h : a ∈ l) :
    (l : Multiset α) = a ::ₘ ↑(l.erase a) :=
  Multiset.coe_eq_coe.mpr (List.perm_cons_erase h)

section

variable [DecidableEq W] {c c' : Cond W} {w : W}

theorem members_take (heq : c.take w = some c') : c'.members = c.members := by
  rw [take, Option.ite_none_right_eq_some, Option.some.injEq] at heq
  obtain ⟨⟨hmem, -⟩, rfl⟩ := heq
  simp only [members, coe_eq_cons_erase hmem, List.map_cons, ← Multiset.cons_coe,
    Multiset.add_cons, Multiset.cons_add]

theorem members_park (heq : c.park w = some c') : c'.members = c.members := by
  rw [park, Option.ite_none_right_eq_some, Option.some.injEq] at heq
  obtain ⟨⟨hmem, -⟩, rfl⟩ := heq
  simp only [members, coe_eq_cons_erase hmem, ← Multiset.coe_add, Multiset.coe_singleton,
    ← Multiset.singleton_add]
  abel

theorem members_cancel (heq : c.cancel w = some c') : c'.members = c.members := by
  rw [cancel] at heq
  split at heq
  next hmem =>
    cases heq
    simp only [members, coe_eq_cons_erase hmem, List.map_cons, ← Multiset.cons_coe,
      Multiset.add_cons, Multiset.cons_add]
  next =>
    rw [Option.ite_none_right_eq_some, Option.some.injEq] at heq
    obtain ⟨hmem, rfl⟩ := heq
    simp only [members, coe_eq_cons_erase hmem, List.map_cons, ← Multiset.cons_coe,
      Multiset.add_cons, Multiset.cons_add]

theorem members_relock {notified : Bool} (heq : c.relock w notified = some c') :
    c.members = w ::ₘ c'.members := by
  rw [relock, Option.ite_none_right_eq_some, Option.some.injEq] at heq
  obtain ⟨hmem, rfl⟩ := heq
  have hwoken : (c.woken.map Prod.fst : Multiset W) =
      w ::ₘ ↑((c.woken.erase (w, notified)).map Prod.fst) := by
    rw [← Multiset.map_coe, ← Multiset.map_coe, coe_eq_cons_erase hmem, Multiset.map_cons]
  simp only [members, hwoken, Multiset.add_cons]

end

theorem card_members (c : Cond W) :
    c.members.card = c.registered.length + c.parked.length + c.woken.length := by
  simp only [members, Multiset.card_add, Multiset.coe_card, List.length_map]

/-! ## One waiter at most -/

/-- Once it is past the `select`, nobody is left to notify. -/
theorem pending_eq_nil {c : Cond W} (hone : c.members.card ≤ 1) (hwoken : c.woken ≠ []) :
    c.pending = [] := by
  have hpos := List.length_pos_of_ne_nil hwoken
  rw [card_members] at hone
  apply List.eq_nil_of_length_eq_zero
  rw [pending, List.length_append]
  omega

theorem Sound.signal_token {c : Cond W} (h : c.Sound) (hone : c.members.card ≤ 1)
    (hpending : c.signal.pending ≠ []) : c.signal.token = true := by
  have hone' : c.signal.members.card ≤ 1 := by rwa [members_signal]
  rw [Cond.signal] at hpending hone' ⊢
  split at hpending
  next hwaiters =>
    rw [if_pos hwaiters] at hone' ⊢
    rw [Cond.notify] at hpending hone' ⊢
    split at hpending
    next w rest hparked =>
      -- the notification has gone to the waiter that blocks
      rw [hparked] at hone'
      exact absurd (pending_eq_nil hone' (List.cons_ne_nil _ _)) hpending
    next hparked => rw [hparked]
  next hwaiters =>
    have hle := h.pending_le
    have hpos := List.length_pos_of_ne_nil hpending
    omega

section

variable [DecidableEq W] {c c' : Cond W} {w : W}

theorem take_pending (hone : c.members.card ≤ 1) (heq : c.take w = some c') : c'.pending = [] := by
  rw [← members_take heq] at hone
  rw [take, Option.ite_none_right_eq_some, Option.some.injEq] at heq
  obtain ⟨-, rfl⟩ := heq
  exact pending_eq_nil hone (List.cons_ne_nil _ _)

theorem cancel_pending (hone : c.members.card ≤ 1) (heq : c.cancel w = some c') :
    c'.pending = [] := by
  rw [← members_cancel heq] at hone
  rw [cancel] at heq
  split at heq
  · cases heq
    exact pending_eq_nil hone (List.cons_ne_nil _ _)
  · rw [Option.ite_none_right_eq_some, Option.some.injEq] at heq
    obtain ⟨-, rfl⟩ := heq
    exact pending_eq_nil hone (List.cons_ne_nil _ _)

theorem park_pending (heq : c.park w = some c') : c.pending ≠ [] ∧ c'.token = c.token := by
  rw [park, Option.ite_none_right_eq_some, Option.some.injEq] at heq
  obtain ⟨⟨hmem, -⟩, rfl⟩ := heq
  exact ⟨List.append_ne_nil_of_left_ne_nil (List.ne_nil_of_mem hmem) _, rfl⟩

theorem relock_pending {notified : Bool} (heq : c.relock w notified = some c') :
    c'.pending = c.pending ∧ c'.token = c.token := by
  rw [relock, Option.ite_none_right_eq_some, Option.some.injEq] at heq
  obtain ⟨-, rfl⟩ := heq
  exact ⟨rfl, rfl⟩

end

/-! ## Any number of waiters -/

/-- There is a notification for every waiter that has not had one: in the channel, or among the `n`
that are still to be sent. -/
def Supplied (c : Cond W) (n : Nat) : Prop := c.pending.length ≤ c.token.toNat + n

theorem Supplied.mono {c : Cond W} {m n : Nat} (h : c.Supplied m) (hle : m ≤ n) : c.Supplied n :=
  h.trans (Nat.add_le_add_left hle _)

/-- A broadcast is to send one to each. -/
theorem Sound.supplied {c : Cond W} (h : c.Sound) : c.Supplied c.waiters :=
  h.pending_le.trans (Nat.le_add_left _ _)

/-- Nobody blocks without one to come. -/
theorem Supplied.not_parked {c : Cond W} (h : c.Supplied 0) (hsound : c.Sound) : c.parked = [] := by
  by_contra hne
  have hpos := List.length_pos_of_ne_nil hne
  rw [Supplied, hsound.idle hne, pending, List.length_append] at h
  dsimp only [Bool.toNat_false] at h
  omega

/-- A send is lost when the channel is full, which matters if the waiters outnumber the sends. -/
theorem Supplied.signal {c : Cond W} {n : Nat} (h : c.Supplied (n + 1)) (hsound : c.Sound)
    (hfull : c.token = true → c.pending.length ≤ n + 1) : c.signal.Supplied n := by
  unfold Supplied at h ⊢
  rw [Cond.signal]
  split
  · rw [notify]
    split
    next w rest hparked =>
      -- the oldest receiver gets it
      rw [pending, List.length_append, hparked, List.length_cons] at h
      simp only [pending, List.length_append]
      omega
    next =>
      change c.pending.length ≤ 1 + n
      cases htoken : c.token with
      | true =>
          have hle := hfull htoken
          omega
      | false =>
          rw [htoken, Bool.toNat_false] at h
          omega
  next hwaiters =>
    have hle := hsound.pending_le
    omega

section

variable [DecidableEq W] {c c' : Cond W} {w : W} {n : Nat}

theorem Supplied.take (h : c.Supplied n) (heq : c.take w = some c') : c'.Supplied n := by
  rw [Cond.take, Option.ite_none_right_eq_some, Option.some.injEq] at heq
  obtain ⟨⟨hmem, htoken⟩, rfl⟩ := heq
  have hlen := List.length_erase_add_one hmem
  rw [Supplied, htoken, pending, List.length_append, Bool.toNat_true] at h
  simp only [Supplied, pending, List.length_append, Bool.toNat_false]
  omega

theorem Supplied.park (h : c.Supplied n) (heq : c.park w = some c') : c'.Supplied n := by
  rw [Cond.park, Option.ite_none_right_eq_some, Option.some.injEq] at heq
  obtain ⟨⟨hmem, -⟩, rfl⟩ := heq
  have hlen := List.length_erase_add_one hmem
  rw [Supplied, pending, List.length_append] at h
  simp only [Supplied, pending, List.length_append, List.length_singleton]
  omega

theorem Supplied.cancel (h : c.Supplied n) (heq : c.cancel w = some c') : c'.Supplied n := by
  rw [Supplied, pending, List.length_append] at h
  rw [Cond.cancel] at heq
  split at heq
  · cases heq
    have hlen : (c.registered.erase w).length ≤ c.registered.length := List.length_erase_le
    simp only [Supplied, pending, List.length_append]
    omega
  · rw [Option.ite_none_right_eq_some, Option.some.injEq] at heq
    obtain ⟨-, rfl⟩ := heq
    have hlen : (c.parked.erase w).length ≤ c.parked.length := List.length_erase_le
    simp only [Supplied, pending, List.length_append]
    omega

theorem Supplied.relock {notified : Bool} (h : c.Supplied n)
    (heq : c.relock w notified = some c') : c'.Supplied n := by
  obtain ⟨hpending, htoken⟩ := relock_pending heq
  rw [Supplied, hpending, htoken]
  exact h

/-- Nobody is on the way into the `select` or out of it if no such step can be taken; `done` is
whether the context is. -/
theorem idle_of_none (done : Bool) (htake : ∀ w, c.take w = none)
    (hpark : done = false → ∀ w, c.park w = none) (hcancel : done = true → ∀ w, c.cancel w = none)
    (hrelock : ∀ w notified, c.relock w notified = none) : c.registered = [] ∧ c.woken = [] := by
  constructor
  · apply List.eq_nil_iff_forall_not_mem.mpr
    intro w hmem
    cases done with
    | true =>
        have hnone := hcancel rfl w
        rw [Cond.cancel, if_pos hmem] at hnone
        cases hnone
    | false =>
        have hnone := hpark rfl w
        have hnone' := htake w
        cases htoken : c.token with
        | true =>
            rw [Cond.take, if_pos ⟨hmem, htoken⟩] at hnone'
            cases hnone'
        | false =>
            rw [Cond.park, if_pos ⟨hmem, htoken⟩] at hnone
            cases hnone
  · apply List.eq_nil_iff_forall_not_mem.mpr
    rintro ⟨w, notified⟩ hmem
    have hnone := hrelock w notified
    rw [Cond.relock, if_pos hmem] at hnone
    cases hnone

end

/-- Past a broadcast nobody is in `Wait` whom it was for. -/
theorem Supplied.members_eq_zero {c : Cond W} (h : c.Supplied 0) (hsound : c.Sound)
    (hidle : c.registered = [] ∧ c.woken = []) : c.members = 0 := by
  rw [← Multiset.card_eq_zero, card_members, hidle.1, hidle.2, h.not_parked hsound]
  rfl

end Cond

end CommonLib.XSync
