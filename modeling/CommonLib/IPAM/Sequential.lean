import CommonLib.IPAM.Ownership

/-!
# Calls one at a time

A method that runs to its end before the next one starts.  What it leaves behind when it fails is
the isolation rule it added before the limit could not be set, and nothing else.
-/

namespace CommonLib.IPAM

open CommonLib.Reasoning CommonLib.Reasoning.NFTables CommonLib.XError CommonLib.XNet
open CommonLib.IPPool

namespace IPAM

/-- The next call of a method that still has one to make. -/
def advance (env : Env) : Progress × IPAM → Except Crash (Progress × IPAM)
  | (.next phase, m) => m.resume env phase
  | (.done r, m) => .ok (.done r, m)

/-- What a method does after its call on the pool: three more calls at most. -/
def finish (env : Env) (p : Progress × IPAM) : Except Crash (Progress × IPAM) := do
  let p ← advance env p
  let p ← advance env p
  advance env p

/-- A method from its first call to its last. -/
def perform (m : IPAM) (env : Env) (draw : UInt32) (c : Call) : Except Crash (Progress × IPAM) := do
  let p ← m.call draw c
  finish env p

/-- `applyPolicy` after a failed call: the address goes back to the pool. -/
def giveBack (m : IPAM) (addr : IP) (e : CallError) : Except Crash (Progress × IPAM) :=
  (m.ipp.unset addr).map fun (_, ipp) ↦ (.done (.error e), { m with ipp := ipp })

/-- The manager with the rule `applyPolicy` adds for the policy. -/
def withRule (m : IPAM) (q : Quad) (pol : Policy) : IPAM :=
  if NeedsRule m.defaultPol pol then { m with rules := m.rules ++ [peerRule m.subnetSize q] } else m

theorem advance_giveBack (env : Env) (m : IPAM) (addr : IP) (e : CallError) :
    (advance env (.next (.giveBack addr e), m)).bind (advance env) = m.giveBack addr e := by
  change (m.giveBack addr e).bind (advance env) = _
  unfold giveBack
  cases m.ipp.unset addr <;> rfl

/-- `setLimit` and what follows it. -/
def limit (m : IPAM) (env : Env) (addr : IP) (rate : Rate) : Except Crash (Progress × IPAM) := do
  let (r, tc) ← m.tc.setLimit env.netlink addr rate
  match r with
  | .error e => giveBack { m with tc := tc } addr (.tc e)
  | .ok () => return (.done (.ok addr), { m with tc := tc })

theorem advance_limit (env : Env) (m : IPAM) (addr : IP) (pol : Policy) :
    (advance env (.next (.limit addr pol), m)).bind (advance env) =
      m.limit env addr pol.rateLimit := by
  change ((m.resume env (.limit addr pol)).bind (advance env)) = _
  rw [limit, resume]
  cases m.tc.setLimit env.netlink addr pol.rateLimit with
  | error c => rfl
  | ok out =>
      obtain ⟨r, tc⟩ := out
      cases r <;> rfl

/-- After the limit the method is over. -/
theorem limit_bind (m : IPAM) (env : Env) (addr : IP) (rate : Rate) :
    (m.limit env addr rate).bind (advance env) = m.limit env addr rate := by
  unfold limit giveBack
  cases m.tc.setLimit env.netlink addr rate with
  | error c => rfl
  | ok out =>
      obtain ⟨r, tc⟩ := out
      cases r with
      | error e => cases h : m.ipp.unset addr <;> simp [bind, Except.bind, Except.map, h, advance]
      | ok _ => rfl

/-- `applyPolicy` as a whole: the rule if the policy needs one, then the limit. -/
def applying (m : IPAM) (env : Env) (addr : IP) (q : Quad) (pol : Policy) :
    Except Crash (Progress × IPAM) :=
  if NeedsRule m.defaultPol pol ∧ env.nft then
    m.giveBack addr (.nft (.x .internalError "nft: failed to isolate peer"))
  else (m.withRule q pol).limit env addr pol.rateLimit

theorem finish_applyPolicy (m : IPAM) (env : Env) {addr : IP} {q : Quad} (haddr : addr.to4 = some q)
    (pol : Policy) :
    finish env (.next (m.applyPolicy addr pol), m) = m.applying env addr q pol := by
  unfold finish applyPolicy applying withRule
  by_cases hneeds : NeedsRule m.defaultPol pol
  · have hrule : newIsolatePeerRule m.subnetSize addr = .ok (peerRule m.subnetSize q) := by
      rw [newIsolatePeerRule, haddr]
      rfl
    rw [if_pos (needsRule_iff.mp hneeds), if_pos hneeds]
    cases hnft : env.nft with
    | true =>
        rw [if_pos ⟨hneeds, rfl⟩, ← advance_giveBack env]
        change (m.resume env (.isolate addr pol)).bind _ = _
        rw [resume, hrule, Except.map, hnft]
        rfl
    | false =>
        rw [if_neg (fun h ↦ Bool.false_ne_true h.2), ← advance_limit]
        change (m.resume env (.isolate addr pol)).bind _ = _
        rw [resume, hrule, Except.map, hnft]
        rfl
  · rw [if_neg (fun h ↦ hneeds (needsRule_iff.mpr h)), if_neg hneeds,
      if_neg (fun h ↦ hneeds h.1), ← limit_bind, ← advance_limit]
    -- without a rule the method is a step shorter, and the third `advance` does nothing
    exact bind_assoc (advance env (.next (.limit addr pol), m)) _ _ |>.symm

/-- The manager once the pool has marked the address. -/
def taking (m : IPAM) (q : Quad) : IPAM :=
  { m with ipp := { m.ipp with used := insert q.toUint32 m.ipp.used } }

/-- What a policy makes of an address depends on its rate and on whether it needs a rule. -/
theorem applying_congr (m : IPAM) (env : Env) (addr : IP) (q : Quad) {pol pol' : Policy}
    (hrate : pol.rateLimit = pol'.rateLimit)
    (hneeds : NeedsRule m.defaultPol pol ↔ NeedsRule m.defaultPol pol') :
    m.applying env addr q pol = m.applying env addr q pol' := by
  unfold applying withRule
  simp only [hneeds, hrate]

/-- A call that takes an address applies the policy to it. -/
theorem perform_take {m : IPAM} {draw : UInt32} {c : Call} {pol : Policy} {addr : IP}
    (hpol : c.policy = some pol) (haddr : c.address m draw = some addr) :
    ∃ q, addr.to4 = some q ∧ q.toUint32 ∉ m.ipp.used ∧ m.ipp.running = true ∧
      ∀ env, m.perform env draw c = (m.taking q).applying env addr q pol := by
  obtain ⟨p, m', hcall⟩ := call_of_address haddr
  cases call_called hcall with
  | @taken _ _ q _ _ hasked haddr' hto4 hfree hrun hrate hneeds =>
      cases hasked.symm.trans hpol
      cases haddr'.symm.trans haddr
      refine ⟨q, hto4, hfree, hrun, fun env ↦ ?_⟩
      rw [perform, hcall]
      exact (finish_applyPolicy (m.taking q) env hto4 _).trans
        (applying_congr _ env _ _ hrate hneeds)
  | returned => cases hpol
  | refused hnone => cases hnone.symm.trans haddr

/-- A call the pool refuses changes nothing. -/
theorem perform_refused {m m' : IPAM} {env : Env} {draw : UInt32} {c : Call} {p : Progress}
    (haddr : c.address m draw = none) (hperform : m.perform env draw c = .ok (p, m')) :
    (∃ e, p = .done (.error (.pool e))) ∧ m' = m := by
  rw [perform] at hperform
  cases hcall : m.call draw c with
  | error _ => rw [hcall] at hperform; cases hperform
  | ok out =>
      obtain ⟨p₁, m₁⟩ := out
      rw [hcall] at hperform
      cases call_called hcall with
      | taken _ haddr' => cases haddr.symm.trans haddr'
      | returned haddr' => cases haddr.symm.trans haddr'
      | refused =>
          cases hperform
          exact ⟨⟨_, rfl⟩, rfl⟩

theorem taking_giveBack {m m₁ : IPAM} {addr : IP} {q : Quad} (haddr : addr.to4 = some q)
    (hfree : q.toUint32 ∉ m.ipp.used) (hrun : m.ipp.running = true) (hipp : m₁.ipp = (m.taking q).ipp)
    (e : CallError) : m₁.giveBack addr e = .ok (.done (.error e), { m₁ with ipp := m.ipp }) := by
  have hrun' : (m.taking q).ipp.running = true := hrun
  have hunset := IPv4pool.unset_eq_ok hrun'
    (IP.toUint32_eq_ok.mpr ⟨q, haddr, rfl⟩) (Finset.mem_insert_self ..)
  have hback : ({ (m.taking q).ipp with used := (m.taking q).ipp.used.erase q.toUint32 } : IPv4pool) =
      m.ipp := by
    unfold taking
    dsimp only
    rw [Finset.erase_insert hfree]
  rw [giveBack, hipp, hunset, hback]
  rfl

theorem withRule_defaultPol (m : IPAM) (q : Quad) (pol : Policy) :
    (m.withRule q pol).defaultPol = m.defaultPol := by
  unfold withRule
  split <;> rfl

theorem withRule_subnetSize (m : IPAM) (q : Quad) (pol : Policy) :
    (m.withRule q pol).subnetSize = m.subnetSize := by
  unfold withRule
  split <;> rfl

theorem withRule_ipp (m : IPAM) (q : Quad) (pol : Policy) : (m.withRule q pol).ipp = m.ipp := by
  unfold withRule
  split <;> rfl

theorem withRule_tc (m : IPAM) (q : Quad) (pol : Policy) : (m.withRule q pol).tc = m.tc := by
  unfold withRule
  split <;> rfl

/-- The rule and the pool do not depend on each other. -/
theorem taking_withRule (m : IPAM) (q : Quad) (pol : Policy) :
    (m.taking q).withRule q pol = (m.withRule q pol).taking q := by
  unfold withRule taking
  dsimp only
  split <;> rfl

/-- The end of a call that has taken an address: it fails at the rule, fails at the limit, or has
both. -/
theorem applying_eq {m : IPAM} {env : Env} {addr : IP} {q : Quad} {pol : Policy}
    (haddr : addr.to4 = some q) (hfree : q.toUint32 ∉ m.ipp.used) (hrun : m.ipp.running = true) :
    (m.taking q).applying env addr q pol =
      if NeedsRule m.defaultPol pol ∧ env.nft then
        .ok (.done (.error (.nft (.x .internalError "nft: failed to isolate peer"))), m)
      else (m.tc.setLimit env.netlink addr pol.rateLimit).map fun (r, tc) ↦
        match r with
        | .error e => (.done (.error (.tc e)), { m.withRule q pol with tc := tc })
        | .ok () => (.done (.ok addr), { (m.withRule q pol).taking q with tc := tc }) := by
  have hpool := withRule_ipp m q pol
  have hsame : (m.taking q).defaultPol = m.defaultPol := rfl
  rw [applying, hsame]
  by_cases hfails : NeedsRule m.defaultPol pol ∧ env.nft
  · rw [if_pos hfails, if_pos hfails, taking_giveBack haddr hfree hrun rfl]
    rfl
  · rw [if_neg hfails, if_neg hfails, taking_withRule, limit]
    change (m.withRule q pol).tc.setLimit env.netlink addr pol.rateLimit >>= _ = _
    rw [withRule_tc]
    cases m.tc.setLimit env.netlink addr pol.rateLimit with
    | error _ => rfl
    | ok out =>
        obtain ⟨r, tc⟩ := out
        cases r with
        | ok _ => rfl
        | error e =>
            change giveBack { (m.withRule q pol).taking q with tc := tc } addr (.tc e) = _
            rw [taking_giveBack (m := m) haddr hfree hrun (by simp [taking, hpool])]
            simp [Except.map, taking, hpool]

/-- `free` returns no error once the pool has taken the address back. -/
theorem perform_unset {m : IPAM} {draw : UInt32} {addr addr' : IP}
    (haddr : Call.address m draw (.unset addr) = some addr') :
    ∃ q, addr.to4 = some q ∧ q.toUint32 ∈ m.ipp.used ∧
      ∀ env, ∃ r tc, m.tc.removeLimit env.netlink addr = .ok (r, tc) ∧
        m.perform env draw (.unset addr) = .ok (.done (.ok addr), { m with
          ipp := { m.ipp with used := m.ipp.used.erase q.toUint32 }
          tc := tc
          rules := (findAndRemoveRule env.nft m.rules q.bytes).2 }) := by
  obtain ⟨p, m', hcall⟩ := call_of_address haddr
  cases call_called hcall with
  | taken hasked => cases hasked
  | refused hnone => cases hnone.symm.trans haddr
  | @returned _ q _ hto4 hused =>
      refine ⟨q, hto4, hused, fun env ↦ ?_⟩
      -- `removeLimit` may fail, but it does not crash on an address of the pool
      have hremove : ∃ r tc, m.tc.removeLimit env.netlink addr = .ok (r, tc) := by
        cases m.tc with
        | nop => exact ⟨_, _, rfl⟩
        | htb tc =>
            rw [TrafficControl.removeLimit, TcWrapper.removeLimit,
              IP.toUint32_eq_ok.mpr ⟨q, hto4, rfl⟩]
            exact ⟨_, _, rfl⟩
      obtain ⟨r, tc, hremove⟩ := hremove
      refine ⟨r, tc, hremove, ?_⟩
      rw [perform, hcall]
      change finish env (.next (.unlimit addr), _) = _
      rw [finish, advance, resume]
      dsimp only
      rw [hremove]
      simp [Except.map, bind, Except.bind, advance, resume, hto4]

end IPAM

/-! ## What a failed call leaves behind -/

/-- The pool, the isolation rules and the limits are the same. -/
structure Unchanged (m m' : IPAM) : Prop where
  used : m'.ipp.used = m.ipp.used
  rules : m'.rules = m.rules
  limits : ∀ a, m'.tc.limitOf a = m.tc.limitOf a

/-- A `setLimit` that fails has done nothing. -/
def FailsCleanly (m : IPAM) (env : Env) : Prop :=
  ∀ addr rate e tc, m.tc.setLimit env.netlink addr rate = .ok (.error e, tc) → tc = m.tc

/-- The call takes an address that needs a rule, adds the rule and then cannot set the limit. -/
def LimitFailsAfterRule (m : IPAM) (env : Env) (draw : UInt32) (c : Call) : Prop :=
  ∃ pol addr e tc, c.policy = some pol ∧ c.address m draw = some addr ∧
    NeedsRule m.defaultPol pol ∧ env.nft = false ∧
    m.tc.setLimit env.netlink addr pol.rateLimit = .ok (.error e, tc)

theorem unchanged_of_ruleless {m m' : IPAM} {env : Env} (hclean : FailsCleanly m env)
    {draw : UInt32} {c : Call} {e : CallError}
    (hperform : m.perform env draw c = .ok (.done (.error e), m'))
    (hrule : ¬ LimitFailsAfterRule m env draw c) : Unchanged m m' := by
  cases haddr : c.address m draw with
  | none =>
      obtain ⟨-, rfl⟩ := IPAM.perform_refused haddr hperform
      exact ⟨rfl, rfl, fun _ ↦ rfl⟩
  | some addr =>
      cases hpol : c.policy with
      | none =>
          -- `Unset` fails only when the pool refuses
          cases c with
          | unset addr' =>
              obtain ⟨q, -, -, hall⟩ := IPAM.perform_unset haddr
              obtain ⟨r, tc, -, hok⟩ := hall env
              rw [hok] at hperform
              cases hperform
          | alloc _ => cases hpol
          | set _ _ => cases hpol
      | some pol =>
          obtain ⟨q, hto4, hfree, hrun, hall⟩ := IPAM.perform_take hpol haddr
          rw [hall env, IPAM.applying_eq hto4 hfree hrun] at hperform
          split at hperform
          · cases hperform
            exact ⟨rfl, rfl, fun _ ↦ rfl⟩
          · rename_i hnft
            cases hset : m.tc.setLimit env.netlink addr pol.rateLimit with
            | error _ => rw [hset] at hperform; cases hperform
            | ok out =>
                obtain ⟨r, tc⟩ := out
                rw [hset] at hperform
                cases r with
                | ok _ => cases hperform
                | error e' =>
                    cases hperform
                    -- the pool has the address back; only a rule could have stayed
                    have hneeds : ¬ NeedsRule m.defaultPol pol := by
                      intro hneeds
                      refine hrule ⟨pol, addr, e', tc, hpol, haddr, hneeds, ?_, hset⟩
                      simpa using fun hfails ↦ hnft ⟨hneeds, hfails⟩
                    rw [IPAM.withRule, if_neg hneeds]
                    exact ⟨rfl, rfl, fun a ↦ by rw [hclean _ _ _ _ hset]⟩

theorem changed_of_ruleLeft {m : IPAM} {env : Env} {draw : UInt32} {c : Call}
    (hrule : LimitFailsAfterRule m env draw c) :
    ∃ e m', m.perform env draw c = .ok (.done (.error e), m') ∧ m'.rules ≠ m.rules := by
  obtain ⟨pol, addr, e, tc, hpol, haddr, hneeds, hnft, hset⟩ := hrule
  obtain ⟨q, hto4, hfree, hrun, hall⟩ := IPAM.perform_take hpol haddr
  refine ⟨.tc e, { m.withRule q pol with tc := tc }, ?_, ?_⟩
  · rw [hall env, IPAM.applying_eq hto4 hfree hrun, if_neg (by simp [hnft]), hset]
    rfl
  · rw [IPAM.withRule, if_pos hneeds]
    simp

/-- A call that fails changes nothing, unless it has added a rule and cannot set the limit. -/
theorem unchanged_iff_ruleless (m : IPAM) (env : Env) (hclean : FailsCleanly m env) (draw : UInt32)
    (c : Call) :
    (∀ e m', m.perform env draw c = .ok (.done (.error e), m') → Unchanged m m') ↔
      ¬ LimitFailsAfterRule m env draw c := by
  constructor
  · intro h hrule
    obtain ⟨e, m', hperform, hne⟩ := changed_of_ruleLeft hrule
    exact hne (h e m' hperform).rules
  · intro hrule e m' hperform
    exact unchanged_of_ruleless hclean hperform hrule

/-- The class comes first, so nothing has happened when it is refused. -/
theorem failsCleanly_of_classAdd (m : IPAM) {env : Env} (hfails : env.netlink .classAdd = true) :
    FailsCleanly m env := by
  intro addr rate e tc hset
  cases htc : m.tc with
  | nop => rw [htc] at hset; cases hset
  | htb tc₀ =>
      rw [htc, TrafficControl.setLimit, TcWrapper.setLimit] at hset
      split at hset
      · cases hset
      · cases hip : addr.toUint32 with
        | error _ => rw [hip] at hset; cases hset
        | ok ip =>
            rw [hip] at hset
            by_cases hlimit : (tc₀.ipToFilterHandler.lookup ip).isSome
            · simp only [Except.map, TcWrapper.addLimit, if_pos hlimit] at hset
              cases hset
              rfl
            · simp only [Except.map, TcWrapper.addLimit, if_neg hlimit, TcWrapper.classAdd, hfails,
                true_or, if_true] at hset
              cases hset
              rfl

/-- `openConfig` with a limiter. -/
def limitedConfig : Config := { openConfig with rateLimiter := some 100000000 }

/-- The kernel refuses every class. -/
def noClasses : Env := ⟨false, fun call ↦ decide (call = .classAdd)⟩

theorem unchanged_withoutRule :
    ∃ m e m', new limitedConfig = .ok (.ok m) ∧
      m.perform noClasses 0 (.set peer ⟨.allowAll, 8000⟩) = .ok (.done (.error e), m') ∧
      Unchanged m m' := by
  refine ⟨_, _, _, rfl, rfl, ?_⟩
  refine (unchanged_iff_ruleless _ noClasses (failsCleanly_of_classAdd _ rfl) 0
    (.set peer ⟨.allowAll, 8000⟩)).mpr ?_ _ _ rfl
  rintro ⟨pol, addr, e, tc, hpol, -, hneeds, -⟩
  cases hpol
  revert hneeds
  decide

/-- The limit of an internet-only peer cannot be set: the address is free again, and still has an
isolation rule. -/
theorem rule_outlives_failed_set :
    ∃ m e m', new limitedConfig = .ok (.ok m) ∧ FailsCleanly m noClasses ∧
      m.perform noClasses 0 (.set peer ⟨.internetOnly, 8000⟩) = .ok (.done (.error e), m') ∧
      m'.ipp.used = m.ipp.used ∧ rulesFor m.rules ⟨10, 0, 0, 5⟩ = [] ∧
      rulesFor m'.rules ⟨10, 0, 0, 5⟩ = [peerRule 3 ⟨10, 0, 0, 5⟩] ∧ ¬ Unchanged m m' := by
  refine ⟨_, _, _, rfl, failsCleanly_of_classAdd _ rfl, rfl, by decide, by decide, by decide,
    fun h ↦ ?_⟩
  have hrules := h.rules
  revert hrules
  decide

end CommonLib.IPAM
