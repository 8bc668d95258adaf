import CommonLib.Protect.Counter

/-!
# Counts and protection

Calls one after another.  `UnprotectAddresses` decides which addresses to pass down before it
counts, and counts below zero for an address that is not held.
-/

namespace CommonLib.Protect

open CommonLib.Reasoning

variable {A : Type} [DecidableEq A]

inductive Op (A : Type)
  | protect (addrs : List A) (outcome : Outcome A)
  | unprotect (addrs : List A) (outcome : Outcome A)
  | unprotectAll (outcome : Outcome A)

/-- The counter, and the addresses of the last call if that was a `ProtectAddresses` without
error. -/
structure Session (A : Type) where
  counter : ProtectCounter A
  granted : List A

namespace Session

def init : Session A := ⟨.withProtectCounter, []⟩

def step (s : Session A) : Op A → Option (Session A)
  | .protect addrs outcome =>
      let (reply, pc) := s.counter.protectAddresses addrs outcome
      match reply with
      | .ok () => some ⟨pc, addrs⟩
      | .error _ => some ⟨pc, []⟩
  | .unprotect addrs outcome => some ⟨(s.counter.unprotectAddresses addrs outcome).2, []⟩
  | .unprotectAll outcome => some ⟨s.counter.unprotectAll outcome, []⟩

end Session

/-! ## Calls that release what is held -/

/-- Each address is held at least as often as the list names it. -/
def Op.Covered (s : Session A) : Op A → Prop
  | .unprotect addrs _ => ∀ a ∈ addrs, (addrs.count a : Int) ≤ s.counter.count a
  | _ => True

/-- Every count is positive, and a `ProtectAddresses` that has just succeeded protects. -/
structure Sound (s : Session A) : Prop where
  counts : ∀ a n, s.counter.counts.lookup a = some n → 1 ≤ n
  granted : ∀ a ∈ s.granted, IsProtected s.counter.protector a

/-- What is counted is protected. -/
structure Backed (s : Session A) : Prop where
  counts : ∀ a n, s.counter.counts.lookup a = some n → 1 ≤ n
  backed : ∀ a, (s.counter.counts.lookup a).isSome → IsProtected s.counter.protector a
  granted : ∀ a ∈ s.granted, (s.counter.counts.lookup a).isSome

theorem Backed.sound {s : Session A} (h : Backed s) : Sound s :=
  ⟨h.counts, fun a ha ↦ h.backed a (h.granted a ha)⟩

theorem ne_some_zero {m : GoMap A Int} (h : ∀ a n, m.lookup a = some n → 1 ≤ n) (a : A) :
    m.lookup a ≠ some 0 := by
  intro hzero
  have hpos := h a 0 hzero
  omega

theorem count_nonneg {m : GoMap A Int} (h : ∀ a n, m.lookup a = some n → 1 ≤ n) (a : A) :
    0 ≤ (m.lookup a).getD 0 := by
  cases hm : m.lookup a with
  | none => exact le_rfl
  | some n =>
      have hpos := h a n hm
      rw [Option.getD_some]
      omega

theorem retain_counts {m : GoMap A Int} (h : ∀ a n, m.lookup a = some n → 1 ≤ n) (addrs : List A)
    (a : A) (n : Int) (hn : (addrs.foldl retain m).lookup a = some n) : 1 ≤ n := by
  rw [lookup_foldl_retain] at hn
  split at hn
  next hmem =>
    cases hn
    have hnonneg := count_nonneg h a
    have hpos : 0 < addrs.count a := List.count_pos_iff.mpr hmem
    omega
  next => exact h a n hn

/-- The counts after a call that covers what it releases. -/
theorem release_counts {m : GoMap A Int} {addrs : List A}
    (h : ∀ a n, m.lookup a = some n → 1 ≤ n)
    (hcovered : ∀ a ∈ addrs, (addrs.count a : Int) ≤ (m.lookup a).getD 0) (a : A) (n : Int)
    (hn : (addrs.foldl release m).lookup a = some n) :
    1 ≤ n ∧ n = (m.lookup a).getD 0 - addrs.count a := by
  rw [lookup_foldl_release addrs (ne_some_zero h a), stored] at hn
  split at hn
  · cases hn
  next hne =>
    cases hn
    have hle : (addrs.count a : Int) ≤ (m.lookup a).getD 0 := by
      by_cases hmem : a ∈ addrs
      · exact hcovered a hmem
      · rw [List.count_eq_zero_of_not_mem hmem]
        exact count_nonneg h a
    omega

theorem backed_protect {s : Session A} (h : Backed s) (addrs : List A) (outcome : Outcome A)
    {t : Session A} (hstep : s.step (.protect addrs outcome) = some t) : Backed t := by
  cases outcome with
  | failed took =>
      cases hstep
      refine ⟨h.counts, fun a ha ↦ (h.backed a ha).protect _ _, fun a ha ↦ ?_⟩
      cases ha
  | ok =>
      cases hstep
      have hlookup := lookup_foldl_retain addrs s.counter.counts
      refine ⟨retain_counts h.counts addrs, fun a ha ↦ ?_, fun a ha ↦ ?_⟩
      · -- an address was counted before, or is passed down now
        by_cases hheld : (s.counter.counts.lookup a).isSome
        · exact (h.backed a hheld).protect _ _
        · change ((addrs.foldl retain s.counter.counts).lookup a).isSome at ha
          have hmem : a ∈ addrs := by
            by_contra hnotin
            rw [hlookup, if_neg hnotin] at ha
            exact hheld ha
          refine (isProtected_cons_ok ..).mpr ?_
          rw [if_pos (List.mem_filter.mpr ⟨hmem, by simpa using hheld⟩)]
      · change ((addrs.foldl retain s.counter.counts).lookup a).isSome
        rw [hlookup, if_pos ha]
        rfl

theorem backed_unprotect {s : Session A} (h : Backed s) (addrs : List A) (outcome : Outcome A)
    (hcovered : (Op.unprotect addrs outcome).Covered s) :
    Backed ⟨(s.counter.unprotectAddresses addrs outcome).2, []⟩ := by
  have hcounts := release_counts h.counts hcovered
  refine ⟨fun a n hn ↦ (hcounts a n hn).1, fun a ha ↦ ?_, fun a ha ↦ by cases ha⟩
  obtain ⟨n, hn⟩ := Option.isSome_iff_exists.mp ha
  obtain ⟨hpos, heq⟩ := hcounts a n hn
  -- what stays was held more than once, or was not released
  have hnotin : a ∉ addrs.filter fun addr ↦ s.counter.count addr = 1 := by
    intro hmem
    obtain ⟨hmem, hone⟩ := List.mem_filter.mp hmem
    have hcount : 0 < addrs.count a := List.count_pos_iff.mpr hmem
    have hone : (s.counter.counts.lookup a).getD 0 = 1 := of_decide_eq_true hone
    omega
  refine (isProtected_cons_of_notMem hnotin).mpr (h.backed a ?_)
  cases hlookup : s.counter.counts.lookup a with
  | none =>
      rw [hlookup, Option.getD_none] at heq
      omega
  | some n => rfl

theorem backed_step (s : Session A) (op : Op A) (t : Session A) (h : Backed s)
    (hcovered : op.Covered s) (hstep : s.step op = some t) : Backed t := by
  cases op with
  | protect addrs outcome => exact backed_protect h addrs outcome hstep
  | unprotect addrs outcome =>
      cases hstep
      exact backed_unprotect h addrs outcome hcovered
  | unprotectAll outcome =>
      cases hstep
      refine ⟨fun a n hn ↦ ?_, fun a ha ↦ ?_, fun a ha ↦ ?_⟩
      · cases hn
      · cases ha
      · cases ha

theorem backed_init : Backed (Session.init : Session A) := by
  refine ⟨fun a n hn ↦ ?_, fun a ha ↦ ?_, fun a ha ↦ ?_⟩
  · cases hn
  · cases ha
  · cases ha

/-- A release that is not covered leaves a negative count. -/
theorem covered_of_counts (s : Session A) (op : Op A) (t : Session A) (h : Sound s)
    (hstep : s.step op = some t) (ht : Sound t) : op.Covered s := by
  cases op with
  | protect addrs outcome => trivial
  | unprotectAll outcome => trivial
  | unprotect addrs outcome =>
      cases hstep
      intro a _
      have hlookup := lookup_foldl_release addrs (ne_some_zero h.counts a)
      by_contra hlt
      rw [ProtectCounter.count, not_le] at hlt
      rw [stored, if_neg (by omega)] at hlookup
      have hpos := ht.counts a _ hlookup
      omega

/-- Every count stays positive and every successful `ProtectAddresses` protects its addresses, in
every state of a run, exactly when no `UnprotectAddresses` names an address more often than it is
held. -/
theorem sound_iff_covered (ops : List (Op A)) :
    EveryState Session.step Sound ops Session.init ↔
      EveryStep Session.step Op.Covered ops Session.init := by
  have hsound : ∀ s : Session A, Backed s → Sound s := fun _ hs ↦ hs.sound
  exact everyState_iff_everyStep hsound
    (fun s op t hs _ hcovered hstep ↦ backed_step s op t hs hcovered hstep)
    (fun s op t hs _ hstep ht ↦ covered_of_counts s op t hs.sound hstep ht)
    (fun _ _ ↦ trivial) backed_init

/-- A release of an address that is not held, then a hold of it: the protector is not asked, and
the call succeeds. -/
theorem unmatched_release_disables :
    ∃ s : Session Nat,
      runSteps Session.step [.unprotect [7] .ok, .protect [7] .ok] Session.init = some s ∧
      s.granted = [7] ∧ ¬ IsProtected s.counter.protector 7 ∧
      s.counter.counts.lookup 7 = some 0 ∧ ¬ Sound s := by
  refine ⟨_, rfl, rfl, by decide, by decide, fun h ↦ ?_⟩
  exact absurd (h.granted 7 (by decide)) (by decide)

/-! ## Lists that repeat an address -/

/-- The call is `ProtectAddresses` or `UnprotectAddresses`, and the protector does what it is
asked. -/
def Op.Succeeds : Op A → Prop
  | .protect _ outcome | .unprotect _ outcome => outcome = .ok
  | .unprotectAll _ => False

/-- The list does not release an address that is held several times as often as it is held. -/
def Op.EndsSingly (s : Session A) : Op A → Prop
  | .unprotect addrs _ => ∀ a ∈ addrs, s.counter.count a = addrs.count a → addrs.count a = 1
  | _ => True

/-- An address is protected exactly while its count is positive. -/
def Mirrors (s : Session A) : Prop :=
  ∀ a, IsProtected s.counter.protector a ↔ 0 < s.counter.count a

/-- The counts of a session whose calls all succeed are positive. -/
structure Matched (s : Session A) : Prop where
  counts : ∀ a n, s.counter.counts.lookup a = some n → 1 ≤ n
  mirrors : Mirrors s

theorem isSome_iff_count_pos {m : GoMap A Int} (h : ∀ a n, m.lookup a = some n → 1 ≤ n) (a : A) :
    (m.lookup a).isSome ↔ 0 < (m.lookup a).getD 0 := by
  cases hm : m.lookup a with
  | none => simp
  | some n =>
      have hpos := h a n hm
      rw [Option.getD_some]
      exact iff_of_true rfl (by omega)

theorem mirrors_protect {s : Session A} (h : Matched s) (addrs : List A) :
    Mirrors ⟨(s.counter.protectAddresses addrs .ok).2, addrs⟩ := by
  intro a
  change IsProtected (⟨.protect, _, .ok⟩ :: s.counter.protector) a ↔
    0 < ((addrs.foldl retain s.counter.counts).lookup a).getD 0
  have hheld := isSome_iff_count_pos h.counts a
  have hold : IsProtected s.counter.protector a ↔ 0 < (s.counter.counts.lookup a).getD 0 :=
    h.mirrors a
  have hnonneg := count_nonneg h.counts a
  rw [isProtected_cons_ok, lookup_foldl_retain]
  by_cases hmem : a ∈ addrs
  · have hpos : 0 < addrs.count a := List.count_pos_iff.mpr hmem
    rw [if_pos hmem, Option.getD_some]
    refine iff_of_true ?_ (by omega)
    split
    · rfl
    next hnotin =>
      rw [hold, ← hheld]
      by_contra hnone
      exact hnotin (List.mem_filter.mpr ⟨hmem, by simpa using hnone⟩)
  · have hnotin : a ∉ addrs.filter fun addr ↦ (s.counter.counts.lookup addr).isNone :=
      fun hfilter ↦ hmem (List.mem_filter.mp hfilter).1
    rw [if_neg hmem, if_neg hnotin, hold]

/-- One covered release keeps the mirror at an address exactly if it does not end several holds of
it at once. -/
theorem mirrors_unprotect_iff {s : Session A} (h : Matched s) {addrs : List A}
    (hcovered : (Op.unprotect addrs .ok).Covered s) (a : A) :
    (IsProtected (s.counter.unprotectAddresses addrs .ok).2.protector a ↔
        0 < (s.counter.unprotectAddresses addrs .ok).2.count a) ↔
      (a ∈ addrs → s.counter.count a = addrs.count a → addrs.count a = 1) := by
  change (IsProtected (⟨.unprotect, _, .ok⟩ :: s.counter.protector) a ↔
    0 < ((addrs.foldl release s.counter.counts).lookup a).getD 0) ↔ _
  have hold : IsProtected s.counter.protector a ↔ 0 < s.counter.count a := h.mirrors a
  have hcount : (s.counter.counts.lookup a).getD 0 = s.counter.count a := rfl
  rw [isProtected_cons_ok, lookup_foldl_release addrs (ne_some_zero h.counts a), getD_stored, hcount]
  by_cases hpassed : a ∈ addrs ∧ s.counter.count a = 1
  · -- the only hold is released
    have hpos : 0 < addrs.count a := List.count_pos_iff.mpr hpassed.1
    have hle : (addrs.count a : Int) ≤ s.counter.count a := hcovered a hpassed.1
    rw [if_pos (List.mem_filter.mpr ⟨hpassed.1, by simpa using hpassed.2⟩)]
    exact iff_of_true (iff_of_false (by decide) (by omega)) (fun _ _ ↦ by omega)
  · have hnotin : a ∉ addrs.filter fun addr ↦ s.counter.count addr = 1 := by
      intro hmem
      obtain ⟨hmem, hone⟩ := List.mem_filter.mp hmem
      exact hpassed ⟨hmem, by simpa using hone⟩
    rw [if_neg hnotin, hold]
    by_cases hmem : a ∈ addrs
    · have hpos : 0 < addrs.count a := List.count_pos_iff.mpr hmem
      have hone : s.counter.count a ≠ 1 := fun heq ↦ hpassed ⟨hmem, heq⟩
      have hle : (addrs.count a : Int) ≤ s.counter.count a := hcovered a hmem
      simp only [hmem, true_implies]
      omega
    · have hzero : addrs.count a = 0 := List.count_eq_zero_of_not_mem hmem
      refine iff_of_true ?_ fun h ↦ absurd h hmem
      omega

theorem matched_counts {s : Session A} {op : Op A} {t : Session A}
    (h : ∀ a n, s.counter.counts.lookup a = some n → 1 ≤ n) (hcovered : op.Covered s)
    (hop : op.Succeeds) (hstep : s.step op = some t) :
    ∀ a n, t.counter.counts.lookup a = some n → 1 ≤ n := by
  cases op with
  | unprotectAll outcome => cases hop
  | unprotect addrs outcome =>
      cases hstep
      exact fun a n hn ↦ (release_counts h hcovered a n hn).1
  | protect addrs outcome =>
      cases hop
      cases hstep
      exact retain_counts h addrs

theorem mirrors_step_iff {s : Session A} {op : Op A} {t : Session A} (h : Matched s)
    (hcovered : op.Covered s) (hop : op.Succeeds) (hstep : s.step op = some t) :
    Mirrors t ↔ op.EndsSingly s := by
  cases op with
  | unprotectAll outcome => cases hop
  | protect addrs outcome =>
      cases hop
      cases hstep
      exact iff_of_true (mirrors_protect h addrs) trivial
  | unprotect addrs outcome =>
      cases hop
      cases hstep
      exact forall_congr' fun a ↦ mirrors_unprotect_iff h hcovered a

theorem matched_init : Matched (Session.init : Session A) := by
  refine ⟨backed_init.counts, fun a ↦ ?_⟩
  exact iff_of_false id (lt_irrefl 0)

/-- With covered releases and a protector that never fails, the addresses protected are those with
a positive count, in every state of a run, exactly when no call releases two or more holds of an
address that are all its holds. -/
theorem mirrors_iff_endsSingly (ops : List (Op A)) (hops : ∀ op ∈ ops, op.Succeeds)
    (hcovered : EveryStep Session.step Op.Covered ops Session.init) :
    EveryState Session.step Mirrors ops Session.init ↔
      EveryStep Session.step Op.EndsSingly ops Session.init := by
  have hok := hcovered.and_mem hops
  constructor
  · intro h
    have hcounts := hok.everyState
      (P := fun s ↦ ∀ a n, s.counter.counts.lookup a = some n → 1 ≤ n)
      (fun s op t hs hop hstep ↦ matched_counts hs hop.2 hop.1 hstep) backed_init.counts
    refine (hcounts.and h).everyStep_of_ok (fun s op t hs hop hstep ht ↦ ?_) hok
    exact (mirrors_step_iff ⟨hs.1, hs.2⟩ hop.2 hop.1 hstep).mp ht.2
  · intro h
    have hmatched := (hok.and h).everyState (P := Matched) (fun s op t hs hop hstep ↦ ?_) matched_init
    · exact hmatched.imp fun _ hs ↦ hs.mirrors
    · obtain ⟨⟨hsucceeds, hcov⟩, hsingly⟩ := hop
      exact ⟨matched_counts hs.counts hcov hsucceeds hstep,
        (mirrors_step_iff hs hcov hsucceeds hstep).mpr hsingly⟩

/-- Two holds that are released one by one. -/
theorem mirrors_releasedSingly :
    EveryState Session.step Mirrors
      [.protect [7, 7] .ok, .unprotect [7] .ok, .unprotect [7] .ok] (Session.init : Session Nat) := by
  refine (mirrors_iff_endsSingly _ (by simp [Op.Succeeds]) ?_).mpr ?_
  · refine .cons rfl trivial (.cons rfl ?_ (.cons rfl ?_ trivial))
    · change ∀ a ∈ [7], _
      decide
    · change ∀ a ∈ [7], _
      decide
  · refine .cons rfl trivial (.cons rfl ?_ (.cons rfl ?_ trivial))
    · change ∀ a ∈ [7], _
      decide
    · change ∀ a ∈ [7], _
      decide

/-- An address held twice by one list and released twice by another stays protected. -/
theorem repeated_release_keeps_protection :
    ∃ s : Session Nat,
      runSteps Session.step [.protect [7, 7] .ok, .unprotect [7, 7] .ok] Session.init = some s ∧
      EveryStep Session.step Op.Covered [.protect [7, 7] .ok, .unprotect [7, 7] .ok]
        (Session.init : Session Nat) ∧
      s.counter.count 7 = 0 ∧ IsProtected s.counter.protector 7 ∧ ¬ Mirrors s := by
  refine ⟨_, rfl, ?_, by decide, by decide, fun h ↦ ?_⟩
  · refine .cons rfl trivial (.cons rfl ?_ trivial)
    change ∀ a ∈ [7, 7], _
    decide
  · exact absurd ((h 7).mp (by decide)) (by decide)

end CommonLib.Protect
