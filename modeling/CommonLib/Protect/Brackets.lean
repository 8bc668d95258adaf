import CommonLib.Protect.Counter
import CommonLib.XDNS.Client.Direct

/-!
# Queries that share a protect counter

`DirectResolver.once` with protection brackets its exchange by `ProtectAddresses` and
`UnprotectAddresses` of its server.  Both run under the counter's lock and so are one step each; the
exchange between them touches nothing that is shared.
-/

namespace CommonLib.Protect

open CommonLib.Reasoning CommonLib.XDNS.Client

/-! ## The calls that concern one address -/

section Turns

variable {A : Type} [DecidableEq A]

/-- What the protector was asked to do with an address, the newest request first. -/
def passes (calls : List (ProtectorCall A)) (a : A) : List Verb :=
  calls.flatMap fun c ↦ List.replicate (c.addrs.count a) c.verb

/-- The same without the requests that failed. -/
def turns (calls : List (ProtectorCall A)) (a : A) : List Verb :=
  calls.flatMap fun c ↦ List.replicate (c.took.count a) c.verb

/-- `protect` first, then `unprotect` and `protect` in turn; the newest stands first. -/
def Alternates (verbs : List Verb) : Prop :=
  verbs.IsChain (· ≠ ·) ∧ verbs.getLast? ≠ some .unprotect

/-- Each request for the address, also one that failed, was due: `protect` while it was not
protected, `unprotect` while it was. -/
def Due : List (ProtectorCall A) → A → Prop
  | [], _ => True
  | c :: calls, a => (a ∈ c.addrs → (IsProtected calls a ↔ c.verb = .unprotect)) ∧ Due calls a

theorem took_sublist (c : ProtectorCall A) : c.took.Sublist c.addrs := by
  unfold ProtectorCall.took
  split
  · exact List.Sublist.refl _
  · exact List.filter_sublist

theorem turns_cons_of_notMem {c : ProtectorCall A} {calls : List (ProtectorCall A)} {a : A}
    (h : a ∉ c.took) : turns (c :: calls) a = turns calls a := by
  rw [turns, List.flatMap_cons, List.count_eq_zero_of_not_mem h]
  rfl

theorem turns_cons_of_mem {c : ProtectorCall A} {calls : List (ProtectorCall A)} {a : A}
    (h : a ∈ c.took) (hnodup : c.addrs.Nodup) : turns (c :: calls) a = c.verb :: turns calls a := by
  have hone : c.took.count a = 1 := List.count_eq_one_of_mem (hnodup.sublist (took_sublist c)) h
  rw [turns, List.flatMap_cons, hone]
  rfl

theorem isProtected_iff_turns {calls : List (ProtectorCall A)} (a : A)
    (hnodup : ∀ c ∈ calls, c.addrs.Nodup) :
    IsProtected calls a ↔ (turns calls a).head? = some .protect := by
  induction calls with
  | nil => exact iff_of_false id (by simp [turns])
  | cons c calls ih =>
      have ih := ih fun d hd ↦ hnodup d (List.mem_cons_of_mem c hd)
      rw [IsProtected]
      by_cases htook : a ∈ c.took
      · rw [if_pos htook, turns_cons_of_mem htook (hnodup c List.mem_cons_self)]
        simp
      · rw [if_neg htook, turns_cons_of_notMem htook, ih]

/-- Requests that are due alternate. -/
theorem Due.alternates {calls : List (ProtectorCall A)} {a : A} (h : Due calls a)
    (hnodup : ∀ c ∈ calls, c.addrs.Nodup) : Alternates (turns calls a) := by
  induction calls with
  | nil => exact ⟨List.isChain_nil, by simp [turns]⟩
  | cons c calls ih =>
      have hrest : ∀ d ∈ calls, d.addrs.Nodup := fun d hd ↦ hnodup d (List.mem_cons_of_mem c hd)
      obtain ⟨hchain, hlast⟩ := ih h.2 hrest
      by_cases htook : a ∈ c.took
      · have hdue := h.1 ((took_sublist c).subset htook)
        rw [isProtected_iff_turns a hrest] at hdue
        rw [turns_cons_of_mem htook (hnodup c List.mem_cons_self)]
        cases hturns : turns calls a with
        | nil =>
            -- the first request that took effect
            rw [hturns] at hdue
            have hverb : c.verb ≠ .unprotect := fun heq ↦ by simpa using hdue.mpr heq
            exact ⟨List.isChain_singleton _, by simpa using hverb⟩
        | cons v vs =>
            rw [hturns] at hdue hchain hlast
            rw [List.head?_cons, Option.some.injEq] at hdue
            refine ⟨List.isChain_cons_cons.mpr ⟨?_, hchain⟩, by simpa using hlast⟩
            rintro rfl
            cases hverb : c.verb with
            | protect => exact absurd (hdue.mp hverb) (by simp [hverb])
            | unprotect => exact absurd (hdue.mpr hverb) (by simp [hverb])
      · rw [turns_cons_of_notMem htook]
        exact ⟨hchain, hlast⟩

end Turns

/-! ## The runs -/

inductive Phase
  | starting | guarded
deriving DecidableEq, Repr

/-- A run of `once` with protection that has not returned: before its `ProtectAddresses`, or between
that and its `UnprotectAddresses`. -/
structure Run where
  server : Addr
  phase : Phase
deriving DecidableEq

structure System where
  counter : ProtectCounter Addr
  runs : Multiset Run

inductive Event
  | call (r : DirectResolver)
  | protect (server : Addr) (fails : Bool)
  | unprotect (server : Addr)

namespace System

def init : System := ⟨.withProtectCounter, 0⟩

def step (s : System) : Event → Option System
  | .call r => some ⟨s.counter, ⟨r.server, .starting⟩ ::ₘ s.runs⟩
  | .protect server fails =>
      if ⟨server, .starting⟩ ∈ s.runs then
        let runs := s.runs.erase ⟨server, .starting⟩
        match s.counter.protectAddresses [server] (if fails then .failed [] else .ok) with
        | (.ok (), pc) => some ⟨pc, ⟨server, .guarded⟩ ::ₘ runs⟩
        -- `once` returns the protector's error.
        | (.error _, pc) => some ⟨pc, runs⟩
      else none
  | .unprotect server =>
      -- The deferred call, whatever the exchange gave.
      if ⟨server, .guarded⟩ ∈ s.runs then
        some ⟨(s.counter.unprotectAddresses [server] .ok).2, s.runs.erase ⟨server, .guarded⟩⟩
      else none

/-- The runs for the server that are inside their bracket. -/
def holders (s : System) (a : Addr) : Nat := s.runs.count ⟨a, .guarded⟩

/-- The counts are the numbers of open brackets. -/
structure Inv (s : System) : Prop where
  counts : ∀ a, s.counter.counts.lookup a = stored (s.holders a)
  mirrors : ∀ a, IsProtected s.counter.protector a ↔ 0 < s.holders a
  due : ∀ a, Due s.counter.protector a
  nodup : ∀ c ∈ s.counter.protector, c.addrs.Nodup

theorem Inv.count {s : System} (h : Inv s) (a : Addr) : s.counter.count a = s.holders a := by
  rw [ProtectCounter.count, h.counts, getD_stored]

/-- What a request for one server, or for none, does to the bookkeeping. -/
theorem Inv.request {s : System} (h : Inv s) (c : ProtectorCall Addr) {server : Addr}
    (haddrs : c.addrs.Sublist [server])
    (hdue : server ∈ c.addrs → (0 < s.holders server ↔ c.verb = .unprotect)) :
    (∀ a, Due (c :: s.counter.protector) a) ∧
      ∀ d ∈ c :: s.counter.protector, d.addrs.Nodup := by
  refine ⟨fun a ↦ ⟨fun hmem ↦ ?_, h.due a⟩, fun d hd ↦ ?_⟩
  · have ha : a = server := by simpa using haddrs.subset hmem
    subst ha
    rw [h.mirrors]
    exact hdue hmem
  · rcases List.mem_cons.mp hd with rfl | hd
    · exact (List.nodup_singleton server).sublist haddrs
    · exact h.nodup d hd

/-- `ProtectAddresses` passes the server down when no run for it is inside its bracket. -/
theorem Inv.passed_iff {s : System} (h : Inv s) (server : Addr) :
    server ∈ ([server].filter fun a ↦ (s.counter.counts.lookup a).isNone) ↔
      s.holders server = 0 := by
  have hcounts := h.counts server
  by_cases hzero : s.holders server = 0
  · simp [hcounts, hzero, stored]
  · simp [hcounts, hzero, stored]

/-- The request of a `ProtectAddresses`, however it ends. -/
theorem Inv.protect_request {s : System} (h : Inv s) (server : Addr) (outcome : Outcome Addr) :
    (∀ a, Due (s.counter.protectAddresses [server] outcome).2.protector a) ∧
      ∀ d ∈ (s.counter.protectAddresses [server] outcome).2.protector, d.addrs.Nodup := by
  have hrequest := h.request
    ⟨.protect, [server].filter fun a ↦ (s.counter.counts.lookup a).isNone, outcome⟩
    List.filter_sublist fun hmem ↦ by
      have hzero := (h.passed_iff server).mp hmem
      exact iff_of_false (by omega) (by simp)
  cases outcome <;> exact hrequest

theorem inv_protect_failed {s : System} (h : Inv s) (server : Addr) :
    Inv ⟨(s.counter.protectAddresses [server] (.failed [])).2,
      s.runs.erase ⟨server, .starting⟩⟩ := by
  have hholders (a : Addr) : (s.runs.erase ⟨server, .starting⟩).count ⟨a, .guarded⟩ =
      s.holders a := Multiset.count_erase_of_ne (by simp) _
  obtain ⟨hdue, hnodup⟩ := h.protect_request server (.failed [])
  refine ⟨fun a ↦ ?_, fun a ↦ ?_, hdue, hnodup⟩
  · rw [holders, hholders]
    exact h.counts a
  · rw [holders, hholders, ← h.mirrors]
    exact isProtected_cons_failed ..

theorem inv_protect_ok {s : System} (h : Inv s) (server : Addr) :
    Inv ⟨(s.counter.protectAddresses [server] .ok).2,
      ⟨server, .guarded⟩ ::ₘ s.runs.erase ⟨server, .starting⟩⟩ := by
  have hholders (a : Addr) :
      (⟨server, .guarded⟩ ::ₘ s.runs.erase ⟨server, .starting⟩ : Multiset Run).count ⟨a, .guarded⟩ =
        s.holders a + if a = server then 1 else 0 := by
    rw [Multiset.count_cons, Multiset.count_erase_of_ne (by simp), holders]
    simp
  obtain ⟨hdue, hnodup⟩ := h.protect_request server .ok
  refine ⟨fun a ↦ ?_, fun a ↦ ?_, hdue, hnodup⟩
  · rw [holders, hholders]
    change (retain s.counter.counts server).lookup a = _
    rw [lookup_retain, h.counts, getD_stored]
    split
    next heq =>
      rw [stored, if_neg (by omega)]
      push_cast
      rfl
    next => rw [Nat.add_zero]
  · rw [holders, hholders]
    refine (isProtected_cons_ok ..).trans ?_
    by_cases heq : a = server
    · subst heq
      rw [if_pos rfl]
      refine iff_of_true ?_ (by omega)
      split
      · rfl
      next hnot =>
        rw [h.passed_iff] at hnot
        exact (h.mirrors a).mpr (by omega)
    · rw [if_neg heq, Nat.add_zero, if_neg, h.mirrors]
      intro hmem
      exact heq (by simpa using List.mem_of_mem_filter hmem)

theorem inv_unprotect {s : System} (h : Inv s) {server : Addr}
    (hrun : ⟨server, .guarded⟩ ∈ s.runs) :
    Inv ⟨(s.counter.unprotectAddresses [server] .ok).2, s.runs.erase ⟨server, .guarded⟩⟩ := by
  have hpos : 0 < s.holders server := Multiset.count_pos.mpr hrun
  have hholders (a : Addr) : (s.runs.erase ⟨server, .guarded⟩).count ⟨a, .guarded⟩ =
      s.holders a - if a = server then 1 else 0 := by
    split
    next heq =>
      subst heq
      exact Multiset.count_erase_self ..
    next hne => exact Multiset.count_erase_of_ne (by simpa using hne) _
  have hpassed : server ∈ ([server].filter fun a ↦ s.counter.count a = 1) ↔
      s.holders server = 1 := by
    rw [List.mem_filter, h.count]
    simp
  obtain ⟨hdue, hnodup⟩ := h.request ⟨.unprotect, [server].filter fun a ↦ s.counter.count a = 1, .ok⟩
    List.filter_sublist fun _ ↦ iff_of_true hpos rfl
  refine ⟨fun a ↦ ?_, fun a ↦ ?_, hdue, hnodup⟩
  · rw [holders, hholders]
    change (release s.counter.counts server).lookup a = _
    rw [lookup_release, h.counts, getD_stored]
    split
    next heq =>
      subst heq
      rw [Nat.cast_sub hpos]
      rfl
    next => rw [Nat.sub_zero]
  · rw [holders, hholders]
    refine (isProtected_cons_ok ..).trans ?_
    by_cases heq : a = server
    · subst heq
      rw [if_pos rfl]
      split
      next hmem =>
        rw [hpassed] at hmem
        exact iff_of_false (by decide) (by omega)
      next hnot =>
        rw [hpassed] at hnot
        exact iff_of_true ((h.mirrors a).mpr hpos) (by omega)
    · rw [if_neg heq, Nat.sub_zero, if_neg, h.mirrors]
      intro hmem
      exact heq (by simpa using List.mem_of_mem_filter hmem)

theorem inv_step (s : System) (e : Event) (t : System) (h : Inv s) (hstep : s.step e = some t) :
    Inv t := by
  cases e with
  | call r =>
      cases hstep
      have hholders (a : Addr) :
          (⟨r.server, .starting⟩ ::ₘ s.runs : Multiset Run).count ⟨a, .guarded⟩ = s.holders a :=
        Multiset.count_cons_of_ne (by simp) _
      exact ⟨fun a ↦ by rw [holders, hholders]; exact h.counts a,
        fun a ↦ by rw [holders, hholders]; exact h.mirrors a, h.due, h.nodup⟩
  | protect server fails =>
      simp only [step] at hstep
      split at hstep
      · cases fails with
        | true =>
            cases hstep
            exact inv_protect_failed h server
        | false =>
            cases hstep
            exact inv_protect_ok h server
      · cases hstep
  | unprotect server =>
      simp only [step, Option.ite_none_right_eq_some] at hstep
      obtain ⟨hrun, hstep⟩ := hstep
      cases hstep
      exact inv_unprotect h hrun

theorem inv_init : Inv init where
  counts _ := rfl
  mirrors _ := iff_of_false id (lt_irrefl 0)
  due _ := trivial
  nodup _ hc := by cases hc

/-- In every state that any interleaving reaches, and for every server: it is protected exactly
while a run for it is inside its bracket, the requests that took effect alternate, and every request
was due. -/
theorem bracketed_reachable (s : System) (h : Reachable step init s) (a : Addr) :
    (IsProtected s.counter.protector a ↔ ⟨a, .guarded⟩ ∈ s.runs) ∧
      Alternates (turns s.counter.protector a) ∧ Due s.counter.protector a := by
  have hInv : Inv s := h.invariant inv_step inv_init
  refine ⟨?_, (hInv.due a).alternates hInv.nodup, hInv.due a⟩
  rw [hInv.mirrors, holders, Multiset.count_pos]

/-- Two runs for one server: while both are open it is protected by one request. -/
theorem bracketed_twoRuns :
    ∃ s : System,
      runSteps step [.call ⟨[9, 9, 9, 9], 0⟩, .call ⟨[9, 9, 9, 9], 0⟩, .protect [9, 9, 9, 9] false,
        .protect [9, 9, 9, 9] false, .unprotect [9, 9, 9, 9]] init = some s ∧
      turns s.counter.protector [9, 9, 9, 9] = [.protect] ∧
      IsProtected s.counter.protector [9, 9, 9, 9] :=
  ⟨_, rfl, by decide, (bracketed_reachable _ ⟨[.call ⟨[9, 9, 9, 9], 0⟩, .call ⟨[9, 9, 9, 9], 0⟩,
    .protect [9, 9, 9, 9] false, .protect [9, 9, 9, 9] false, .unprotect [9, 9, 9, 9]], rfl⟩
    [9, 9, 9, 9]).1.mpr (by decide)⟩

/-- The protector refuses twice: the second run passes the server to `protect` again. -/
theorem refused_protect_repeats :
    ∃ s : System,
      runSteps step [.call ⟨[9, 9, 9, 9], 0⟩, .call ⟨[9, 9, 9, 9], 0⟩, .protect [9, 9, 9, 9] true,
        .protect [9, 9, 9, 9] true] init = some s ∧
      passes s.counter.protector [9, 9, 9, 9] = [.protect, .protect] ∧
      ¬ Alternates (passes s.counter.protector [9, 9, 9, 9]) := by
  refine ⟨_, rfl, by decide, fun h ↦ ?_⟩
  have hchain : List.IsChain (· ≠ ·) [Verb.protect, .protect] := h.1
  simp at hchain

end System

end CommonLib.Protect
