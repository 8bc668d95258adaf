import CommonLib.Control.ServiceMap

/-!
# A second `Shutdown`

`Shutdown` starts at the service registered last each time, and returns an error at a service that
an earlier call has shut down.  So a further call finishes the job only if the failed one has shut
down nothing.
-/

namespace CommonLib.Control

open CommonLib.Reasoning CommonLib.XError

variable {N S : Type} [DecidableEq N]

namespace ServiceMap

/-- The service registered under the name, unless it has been shut down. -/
def live (m : ServiceMap N S) (name : N) : Option S := (m.services.lookup name).join

/-- The services that have not been shut down, in reverse order of registration. -/
def remaining (m : ServiceMap N S) : List (N × S) :=
  m.order.reverse.filterMap fun name ↦ (m.live name).map (name, ·)

/-- The call shuts down what remains, each service once, and leaves an empty map. -/
def Finishes (m : ServiceMap N S) (answers : N → Answer) : Prop :=
  m.shutdown answers = (.ok (), newServiceMap, m.remaining)

/-! ## The loop -/

section Loop

variable {answers : N → Answer} {name : N} {services : GoMap N (Option S)}

theorem shutdownLoop_of_stop (rest : List N)
    (h : ¬((services.lookup name).join.isSome ∧ (answers name).Succeeds)) :
    ∃ err calls, shutdownLoop answers (name :: rest) services = (.error err, services, calls) := by
  rw [shutdownLoop]
  cases hname : (services.lookup name).join with
  | none => exact ⟨_, _, rfl⟩
  | some service =>
      cases herr : (answers name).err with
      | some err => exact ⟨_, _, rfl⟩
      | none =>
          have hrunning : (answers name).running = true := by
            by_contra hrunning
            exact h ⟨by rw [hname]; rfl, herr, Bool.eq_false_of_not_eq_true hrunning⟩
          simp only [hrunning, if_true]
          exact ⟨_, _, rfl⟩

theorem shutdownLoop_of_next {service : S} (rest : List N)
    (hlive : (services.lookup name).join = some service) (hanswer : (answers name).Succeeds) :
    shutdownLoop answers (name :: rest) services =
      ((shutdownLoop answers rest (services.insert name none)).1,
        (shutdownLoop answers rest (services.insert name none)).2.1,
        (name, service) :: (shutdownLoop answers rest (services.insert name none)).2.2) := by
  rw [shutdownLoop, hlive]
  simp only [hanswer.1, hanswer.2, Bool.false_eq_true, if_false]

/-- The loop writes only under the names it passes. -/
theorem lookup_shutdownLoop_of_notMem {names : List N} (h : name ∉ names)
    (services : GoMap N (Option S)) :
    (shutdownLoop answers names services).2.1.lookup name = services.lookup name := by
  induction names generalizing services with
  | nil => rfl
  | cons other rest ih =>
      obtain ⟨hother, hrest⟩ := List.ne_and_not_mem_of_not_mem_cons h
      by_cases hgo : (services.lookup other).join.isSome ∧ (answers other).Succeeds
      · obtain ⟨service, hlive⟩ := Option.isSome_iff_exists.mp hgo.1
        rw [shutdownLoop_of_next rest hlive hgo.2]
        exact (ih hrest _).trans (AList.lookup_insert_ne hother)
      · obtain ⟨err, calls, hloop⟩ := shutdownLoop_of_stop rest hgo
        rw [hloop]

theorem isSome_lookup_insert {other : N} (service : Option S)
    (h : name = other ∨ (services.lookup name).isSome) :
    ((services.insert other service).lookup name).isSome := by
  by_cases hname : name = other
  · rw [hname, AList.lookup_insert]
    rfl
  · rw [AList.lookup_insert_ne hname]
    exact h.resolve_left hname

theorem isSome_lookup_shutdownLoop (names : List N) (h : (services.lookup name).isSome) :
    ((shutdownLoop answers names services).2.1.lookup name).isSome := by
  induction names generalizing services with
  | nil => exact h
  | cons other rest ih =>
      by_cases hgo : (services.lookup other).join.isSome ∧ (answers other).Succeeds
      · obtain ⟨service, hlive⟩ := Option.isSome_iff_exists.mp hgo.1
        rw [shutdownLoop_of_next rest hlive hgo.2]
        exact ih (isSome_lookup_insert none (.inr h))
      · obtain ⟨err, calls, hloop⟩ := shutdownLoop_of_stop rest hgo
        rwa [hloop]

/-- What a loop calls on its way to a return without error. -/
theorem shutdownLoop_calls {names : List N} (hnames : names.Nodup)
    (h : ∀ name ∈ names, (services.lookup name).join.isSome ∧ (answers name).Succeeds) :
    (shutdownLoop answers names services).1 = .ok () ∧
      (shutdownLoop answers names services).2.2 =
        names.filterMap fun name ↦ (services.lookup name).join.map (name, ·) := by
  induction names generalizing services with
  | nil => exact ⟨rfl, rfl⟩
  | cons name rest ih =>
      obtain ⟨hnotin, hrest⟩ := List.nodup_cons.mp hnames
      obtain ⟨hlive, hanswer⟩ := h name List.mem_cons_self
      obtain ⟨service, hlive⟩ := Option.isSome_iff_exists.mp hlive
      have hsame : ∀ other ∈ rest, (services.insert name none).lookup other =
          services.lookup other := fun other hother ↦
        AList.lookup_insert_ne fun heq ↦ hnotin (heq ▸ hother)
      obtain ⟨hok, hcalls⟩ := ih hrest fun other hother ↦ by
        rw [hsame other hother]
        exact h other (List.mem_cons_of_mem name hother)
      rw [shutdownLoop_of_next rest hlive hanswer]
      refine ⟨hok, ?_⟩
      rw [List.filterMap_cons_some (by rw [hlive]; rfl)]
      refine congrArg _ (hcalls.trans (List.filterMap_congr fun other hother ↦ ?_))
      rw [hsame other hother]

theorem shutdownLoop_eq_ok_iff {names : List N} (hnames : names.Nodup) :
    (shutdownLoop answers names services).1 = .ok () ↔
      ∀ name ∈ names, (services.lookup name).join.isSome ∧ (answers name).Succeeds := by
  refine ⟨fun h ↦ ?_, fun h ↦ (shutdownLoop_calls hnames h).1⟩
  induction names generalizing services with
  | nil => simp
  | cons name rest ih =>
      obtain ⟨hnotin, hrest⟩ := List.nodup_cons.mp hnames
      by_cases hgo : (services.lookup name).join.isSome ∧ (answers name).Succeeds
      · obtain ⟨service, hlive⟩ := Option.isSome_iff_exists.mp hgo.1
        rw [shutdownLoop_of_next rest hlive hgo.2] at h
        intro other hother
        obtain rfl | hother := List.mem_cons.mp hother
        · exact hgo
        · have hne : other ≠ name := fun heq ↦ hnotin (heq ▸ hother)
          have hlater := ih hrest h other hother
          rwa [AList.lookup_insert_ne hne] at hlater
      · obtain ⟨err, calls, hloop⟩ := shutdownLoop_of_stop rest hgo
        rw [hloop] at h
        cases h

/-- The entry under the first name survives only a loop that stops there. -/
theorem isSome_shutdownLoop_head {rest : List N} (hrest : name ∉ rest)
    (h : ((shutdownLoop answers (name :: rest) services).2.1.lookup name).join.isSome) :
    (shutdownLoop answers (name :: rest) services).2.1 = services ∧ ¬(answers name).Succeeds := by
  by_cases hgo : (services.lookup name).join.isSome ∧ (answers name).Succeeds
  · obtain ⟨service, hlive⟩ := Option.isSome_iff_exists.mp hgo.1
    rw [shutdownLoop_of_next rest hlive hgo.2, lookup_shutdownLoop_of_notMem hrest,
      AList.lookup_insert] at h
    cases h
  · obtain ⟨err, calls, hloop⟩ := shutdownLoop_of_stop rest hgo
    rw [hloop] at h ⊢
    exact ⟨rfl, fun hanswer ↦ hgo ⟨h, hanswer⟩⟩

end Loop

/-! ## One call -/

section Call

variable {m m₁ : ServiceMap N S} {answers : N → Answer} {calls : List (N × S)} {err : GoError}

theorem shutdown_of_error (h : m.shutdown answers = (.error err, m₁, calls)) :
    m₁ = { m with services := (shutdownLoop answers m.order.reverse m.services).2.1 } := by
  rw [shutdown] at h
  rcases hloop : shutdownLoop answers m.order.reverse m.services with ⟨_ | _, services, calls'⟩ <;>
    rw [hloop] at h
  · exact (congrArg (·.2.1) h).symm
  · cases h

theorem finishes_iff (hm : m.order.Nodup) :
    m.Finishes answers ↔ ∀ name ∈ m.order, (m.live name).isSome ∧ (answers name).Succeeds := by
  have hnames := List.nodup_reverse.mpr hm
  have hmem : (∀ name ∈ m.order.reverse, (m.live name).isSome ∧ (answers name).Succeeds) ↔
      ∀ name ∈ m.order, (m.live name).isSome ∧ (answers name).Succeeds := by
    simp only [List.mem_reverse]
  rw [← hmem, Finishes, shutdown]
  constructor
  · intro h
    apply (shutdownLoop_eq_ok_iff hnames).mp
    rcases hloop : shutdownLoop answers m.order.reverse m.services with ⟨_ | _, services, calls⟩
    · rw [hloop] at h
      cases h
    · rfl
  · intro h
    obtain ⟨hok, hcalls⟩ := shutdownLoop_calls hnames h
    rcases hloop : shutdownLoop answers m.order.reverse m.services with ⟨_ | _, services, calls⟩ <;>
      rw [hloop] at hok hcalls
    · cases hok
    · rw [show calls = m.remaining from hcalls]
      rfl

/-- A failed call has shut down nothing exactly when the service registered last, which it calls
first, has failed. -/
theorem live_of_error_iff (hm : m.order.Nodup)
    (h : m.shutdown answers = (.error err, m₁, calls)) :
    (∀ name ∈ m.order, (m₁.live name).isSome) ↔
      (∀ name ∈ m.order, (m.live name).isSome) ∧
        ∃ name ∈ m.order.getLast?, ¬(answers name).Succeeds := by
  have hm₁ := shutdown_of_error h
  obtain hnil | ⟨before, last, horder⟩ := List.eq_nil_or_concat m.order
  · rw [shutdown, hnil] at h
    cases h
  · have hreverse : m.order.reverse = last :: before.reverse := by simp [horder]
    have hlast : m.order.getLast? = some last := by simp [horder]
    have hnotin : last ∉ before.reverse := by
      rw [← List.nodup_reverse, hreverse] at hm
      exact (List.nodup_cons.mp hm).1
    rw [hreverse] at hm₁
    constructor
    · intro hlive
      have hhead := hlive last (List.mem_of_getLast? hlast)
      rw [hm₁] at hhead
      obtain ⟨hsame, hfails⟩ := isSome_shutdownLoop_head hnotin hhead
      refine ⟨?_, last, hlast, hfails⟩
      rwa [hm₁, hsame] at hlive
    · rintro ⟨hlive, name, hname, hfails⟩
      obtain rfl : last = name := by simpa [hlast] using hname
      have hstop : ¬((m.services.lookup last).join.isSome ∧ (answers last).Succeeds) :=
        fun hgo ↦ hfails hgo.2
      obtain ⟨err', calls', hloop⟩ := shutdownLoop_of_stop before.reverse hstop
      rw [hm₁, hloop]
      exact hlive

end Call

/-! ## Runs -/

/-- The names are registered once each, and every name in order has its entry. -/
structure Inv (m : ServiceMap N S) : Prop where
  nodup : m.order.Nodup
  registered : ∀ name ∈ m.order, (m.services.lookup name).isSome

theorem step_inv {m m' : ServiceMap N S} {op : Op N S} (hm : m.Inv) (h : step m op = some m') :
    m'.Inv := by
  cases op with
  | register name service =>
      rw [step, toOption_eq_some_iff, registerService] at h
      split_ifs at h with hknown hnil
      cases h
      have hfresh : name ∉ m.order := fun hname ↦ hknown (hm.registered name hname)
      refine ⟨List.nodup_append.mpr ⟨hm.nodup, List.nodup_singleton name, ?_⟩, ?_⟩
      · intro a ha b hb heq
        exact hfresh (List.mem_singleton.mp hb ▸ heq ▸ ha)
      · intro other hother
        obtain hother | hother := List.mem_append.mp hother
        · exact isSome_lookup_insert service (.inr (hm.registered other hother))
        · exact isSome_lookup_insert service (.inl (List.mem_singleton.mp hother))
  | replace name s answer =>
      rw [step, Option.map_eq_some_iff] at h
      obtain ⟨⟨reply, m''⟩, h, rfl⟩ := h
      rw [toOption_eq_some_iff] at h
      unfold replace at h
      split at h
      · cases h
        exact hm
      · cases h
      · split at h
        · cases h
          exact hm
        · cases h
          exact ⟨hm.nodup, fun other hother ↦
            isSome_lookup_insert s (.inr (hm.registered other hother))⟩
  | shutdown answers =>
      cases h
      rw [shutdown]
      rcases hloop : shutdownLoop answers m.order.reverse m.services with ⟨_ | _, services, calls⟩
      · obtain rfl : (shutdownLoop answers m.order.reverse m.services).2.1 = services := by rw [hloop]
        exact ⟨hm.nodup, fun name hname ↦
          isSome_lookup_shutdownLoop m.order.reverse (hm.registered name hname)⟩
      · exact ⟨List.nodup_nil, by simp⟩

/-- After a failed `Shutdown`, whatever calls came before it, a further one shuts down every
service that is left, and only those, exactly when the failed call has left all of them: none was
nil, the one registered last failed, and now they all succeed. -/
theorem retry_finishes_iff {m m₁ : ServiceMap N S} {answers₁ answers₂ : N → Answer}
    {calls : List (N × S)} {err : GoError} (hm : Reachable step newServiceMap m)
    (hfailed : m.shutdown answers₁ = (.error err, m₁, calls)) :
    m₁.Finishes answers₂ ↔
      (∀ name ∈ m.order, (m.live name).isSome) ∧
        (∃ name ∈ m.order.getLast?, ¬(answers₁ name).Succeeds) ∧
        ∀ name ∈ m.order, (answers₂ name).Succeeds := by
  have hinv : m.Inv := hm.invariant (fun _ _ _ ↦ step_inv) ⟨List.nodup_nil, by simp [newServiceMap]⟩
  have horder : m₁.order = m.order := by rw [shutdown_of_error hfailed]
  rw [finishes_iff (horder ▸ hinv.nodup), horder, ← and_assoc,
    ← live_of_error_iff hinv.nodup hfailed]
  exact forall₂_and

/-- Two services, `0` registered before `1`. -/
def twoServices : ServiceMap Nat Unit :=
  ⟨AList.insert 1 (some ()) (AList.insert 0 (some ()) ∅), [0, 1]⟩

theorem reachable_twoServices : Reachable step newServiceMap twoServices :=
  ⟨[.register 0 (some ()), .register 1 (some ())], rfl⟩

/-- Those listed fail, and the others succeed. -/
def failing (names : List Nat) (name : Nat) : Answer :=
  ⟨if name ∈ names then some (.new "busy") else none, false⟩

theorem failing_nil_succeeds (name : Nat) : (failing [] name).Succeeds := ⟨rfl, rfl⟩

/-- The service registered last fails, and a further call shuts down both. -/
theorem retry_finishes_lastFailed :
    twoServices.shutdown (failing [1]) =
        (.error (.xNested .internalError "service is failed to shutdown" (.new "busy")),
          twoServices, [(1, ())]) ∧
      twoServices.Finishes (failing []) := by
  have hfailed : twoServices.shutdown (failing [1]) =
      (.error (.xNested .internalError "service is failed to shutdown" (.new "busy")),
        twoServices, [(1, ())]) := rfl
  refine ⟨hfailed, (retry_finishes_iff reachable_twoServices hfailed).mpr ⟨?_, ?_, ?_⟩⟩
  · change ∀ name ∈ [0, 1], _
    decide
  · exact ⟨1, rfl, by decide⟩
  · exact fun name _ ↦ failing_nil_succeeds name

/-- The service registered first fails after the other has been shut down.  Now it would succeed,
but the next call returns at the other and does not come to it. -/
theorem retry_stops_at_nil :
    ∃ m₁, Reachable step newServiceMap twoServices ∧
      twoServices.shutdown (failing [0]) =
        (.error (.xNested .internalError "service is failed to shutdown" (.new "busy")), m₁,
          [(1, ()), (0, ())]) ∧
      (∀ name, (failing [] name).Succeeds) ∧ m₁.remaining = [(0, ())] ∧
      m₁.shutdown (failing []) = (.error (.x .internalError "service is nil"), m₁, []) :=
  ⟨_, reachable_twoServices, rfl, failing_nil_succeeds, rfl, rfl⟩

end ServiceMap

end CommonLib.Control
