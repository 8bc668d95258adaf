import CommonLib.IPAM.Sequential

/-!
# The rules and the limits mirror the pool

When calls run one at a time, the isolation rules and the limits follow the allocated addresses and
their policies as long as every limit asked for can be set: there is a limiter, and an address that
needs a rule has a class handle of its own.
-/

namespace CommonLib.IPAM

open CommonLib.Reasoning CommonLib.Reasoning.NFTables CommonLib.XNet CommonLib.IPPool

/-- The rates of all filters for an address. -/
def TcWrapper.limitsFor (tc : TcWrapper) (ip : UInt32) : List Rate :=
  (tc.filters.filter (·.val = ip)).filterMap fun f ↦
    (tc.classes.find? (·.handle = f.classId)).map (·.rate)

def TrafficControl.limitsFor (tc : TrafficControl) (ip : UInt32) : List Rate :=
  match tc with
  | .nop => []
  | .htb tc => tc.limitsFor ip

theorem TrafficControl.Consistent.limitsFor_eq {tc : TrafficControl} (h : tc.Consistent)
    (ip : UInt32) : tc.limitsFor ip = (tc.limitOf ip).toList := by
  cases tc with
  | nop => rfl
  | htb tc =>
      change TcWrapper.limitsFor tc ip = (TcWrapper.limitOf tc ip).toList
      unfold TcWrapper.limitsFor TcWrapper.limitOf
      rw [filter_key_eq h.vals]
      cases tc.filters.find? (·.val = ip) with
      | none => rfl
      | some f =>
          cases hclass : tc.classes.find? (·.handle = f.classId) <;> simp [hclass]

/-! ## Runs of whole calls -/

/-- The manager, and who has which address with which policy. -/
structure Managed where
  ipam : IPAM
  owner : Quad → Option Policy

def Managed.init (m : IPAM) : Managed := ⟨m, fun _ ↦ none⟩

/-- A call that succeeds sets the owner of its address, or, for `Unset`, clears it. -/
def Managed.step (s : Managed) (op : Call × UInt32) : Option Managed :=
  match s.ipam.perform .working op.2 op.1 with
  | .error _ => none
  | .ok (.done (.ok addr), m) => some ⟨m, setOwner s.owner addr op.1.policy⟩
  | .ok (_, m) => some ⟨m, s.owner⟩

/-- Each address has the one rule and the one limit that its owner's policy asks for, and an address
without an owner has none. -/
structure Mirrors (s : Managed) : Prop where
  rules : ∀ q, rulesFor s.ipam.rules q =
    requiredRules s.ipam.defaultPol s.ipam.subnetSize q (s.owner q)
  limits : ∀ q : Quad, s.ipam.tc.limitsFor q.toUint32 = (requiredLimit (s.owner q)).toList
  allocated : ∀ q pol, s.owner q = some pol → q.toUint32 ∈ s.ipam.ipp.used

/-- A limit asked for can be set, or there is no rule to leave behind. -/
def Serviceable (s : Managed) (op : Call × UInt32) : Prop :=
  ∀ pol addr q, op.1.policy = some pol → op.1.address s.ipam op.2 = some addr →
    addr.to4 = some q → pol.rateLimit = 0 ∨ ∃ tc, s.ipam.tc = .htb tc ∧
      (NeedsRule s.ipam.defaultPol pol → handleForIP q.toUint32 ∉ tc.classHandles)

structure MirrorInv (s : Managed) : Prop extends Mirrors s where
  consistent : s.ipam.tc.Consistent

theorem MirrorInv.limitOf {s : Managed} (h : MirrorInv s) (q : Quad) :
    s.ipam.tc.limitOf q.toUint32 = requiredLimit (s.owner q) := by
  have hlimits := h.limits q
  rw [h.consistent.limitsFor_eq] at hlimits
  simpa only [Option.head?_toList] using congrArg List.head? hlimits

/-- The limits by way of `limitOf`. -/
theorem MirrorInv.of_limitOf {s : Managed} (hconsistent : s.ipam.tc.Consistent)
    (hrules : ∀ q, rulesFor s.ipam.rules q =
      requiredRules s.ipam.defaultPol s.ipam.subnetSize q (s.owner q))
    (hlimit : ∀ q : Quad, s.ipam.tc.limitOf q.toUint32 = requiredLimit (s.owner q))
    (hallocated : ∀ q pol, s.owner q = some pol → q.toUint32 ∈ s.ipam.ipp.used) : MirrorInv s where
  rules := hrules
  limits q := by rw [hconsistent.limitsFor_eq, hlimit]
  allocated := hallocated
  consistent := hconsistent

theorem Mirrors.unowned {s : Managed} (h : Mirrors s) {q : Quad}
    (hfree : q.toUint32 ∉ s.ipam.ipp.used) : s.owner q = none := by
  cases howner : s.owner q with
  | none => rfl
  | some pol => exact absurd (h.allocated q pol howner) hfree

/-! ## One call -/

section Step

variable {s t : Managed} {op : Call × UInt32}

theorem Managed.step_refused (haddr : op.1.address s.ipam op.2 = none)
    (hstep : s.step op = some t) : t = s := by
  unfold step at hstep
  split at hstep
  · cases hstep
  · rename_i addr m hperform
    -- a refused call does not return an address
    obtain ⟨⟨e, he⟩, -⟩ := IPAM.perform_refused haddr hperform
    cases he
  · rename_i p m _ hperform
    obtain ⟨-, rfl⟩ := IPAM.perform_refused haddr hperform
    cases hstep
    rfl

/-- A call that takes an address, by what `setLimit` returns. -/
theorem Managed.step_take {pol : Policy} {addr : IP} (hpol : op.1.policy = some pol)
    (haddr : op.1.address s.ipam op.2 = some addr) :
    ∃ q, addr.to4 = some q ∧ q.toUint32 ∉ s.ipam.ipp.used ∧
      ∀ r tc, s.ipam.tc.setLimit TcWrapper.noFailure addr pol.rateLimit = .ok (r, tc) →
        s.step op = match r with
          | .ok () => some ⟨{ (s.ipam.withRule q pol).taking q with tc := tc },
              Function.update s.owner q (some pol)⟩
          | .error _ => some ⟨{ s.ipam.withRule q pol with tc := tc }, s.owner⟩ := by
  obtain ⟨q, hto4, hfree, hrun, hall⟩ := IPAM.perform_take hpol haddr
  refine ⟨q, hto4, hfree, fun r tc hset ↦ ?_⟩
  have hworks : ¬ (NeedsRule s.ipam.defaultPol pol ∧ Env.working.nft = true) :=
    fun h ↦ Bool.false_ne_true h.2
  have hset' : s.ipam.tc.setLimit Env.working.netlink addr pol.rateLimit = .ok (r, tc) := hset
  unfold step
  rw [hall, IPAM.applying_eq hto4 hfree hrun, if_neg hworks, hset']
  cases r with
  | ok _ => simp only [Except.map, setOwner, hto4, hpol]
  | error e => rfl

theorem rulesFor_withRule (m : IPAM) (q q' : Quad) (pol : Policy) :
    rulesFor (m.withRule q pol).rules q' = rulesFor m.rules q' ++
      if q' = q then requiredRules m.defaultPol m.subnetSize q (some pol) else [] := by
  rw [IPAM.withRule, requiredRules]
  by_cases hneeds : NeedsRule m.defaultPol pol
  · rw [if_pos hneeds, if_pos hneeds]
    exact rulesFor_append ..
  · rw [if_neg hneeds, if_neg hneeds, ite_self, List.append_nil]

theorem MirrorInv.take (h : MirrorInv s) {pol : Policy} {addr : IP} (hpol : op.1.policy = some pol)
    (haddr : op.1.address s.ipam op.2 = some addr) (hok : Serviceable s op)
    (hstep : s.step op = some t) : MirrorInv t := by
  obtain ⟨q, hto4, hfree, hcases⟩ := Managed.step_take hpol haddr
  have howner := h.unowned hfree
  have hnone : s.ipam.tc.limitOf q.toUint32 = none := by rw [h.limitOf, howner]; rfl
  have hserve := hok pol addr q hpol haddr hto4
  rcases setLimit_spec h.consistent hto4 hnone (hserve.imp_right fun ⟨tc, htc, _⟩ ↦ ⟨tc, htc⟩) with
    ⟨tc, hset, hconsistent, hlimit⟩ | ⟨e, htb, hhtb, hclass, hrate, hset⟩
  · rw [hcases _ _ hset] at hstep
    cases hstep
    refine .of_limitOf hconsistent (fun q' ↦ ?_) (fun q' ↦ ?_) (fun q' pol' ↦ ?_)
    · change rulesFor (s.ipam.withRule q pol).rules q' = requiredRules
        (s.ipam.withRule q pol).defaultPol (s.ipam.withRule q pol).subnetSize q'
        (Function.update s.owner q (some pol) q')
      rw [rulesFor_withRule, h.rules, IPAM.withRule_defaultPol, IPAM.withRule_subnetSize]
      by_cases hq : q' = q
      · subst hq
        rw [if_pos rfl, howner, Function.update_self]
        rfl
      · rw [if_neg hq, List.append_nil, Function.update_of_ne hq]
    · dsimp only
      rw [hlimit]
      by_cases hq : q' = q
      · subst hq
        rw [if_pos rfl, Function.update_self]
        rfl
      · rw [if_neg fun heq ↦ hq (Quad.toUint32_injective heq), Function.update_of_ne hq, h.limitOf]
    · change _ → q'.toUint32 ∈ insert q.toUint32 (s.ipam.withRule q pol).ipp.used
      rw [IPAM.withRule_ipp, Finset.mem_insert]
      by_cases hq : q' = q
      · exact fun _ ↦ .inl (hq ▸ rfl)
      · dsimp only
        rw [Function.update_of_ne hq]
        exact fun hsome ↦ .inr (h.allocated q' pol' hsome)
  · -- The handle is taken, so the address needs no rule and none was added.
    have hneeds : ¬ NeedsRule s.ipam.defaultPol pol := by
      intro hneeds
      rcases hserve with hzero | ⟨tc, htc, hown⟩
      · exact hrate hzero
      · cases hhtb.symm.trans htc
        exact hown hneeds hclass
    rw [hcases _ _ hset, IPAM.withRule, if_neg hneeds] at hstep
    cases hstep
    exact h

theorem MirrorInv.returned (h : MirrorInv s) {addr addr' : IP} (hop : op.1 = .unset addr)
    (haddr : op.1.address s.ipam op.2 = some addr') (hstep : s.step op = some t) : MirrorInv t := by
  rw [hop] at haddr
  obtain ⟨q, hto4, hused, hall⟩ := IPAM.perform_unset haddr
  obtain ⟨r, tc, hremove, hperform⟩ := hall .working
  obtain ⟨r', tc', hremove', hconsistent, hlimit⟩ := removeLimit_spec h.consistent hto4
  cases hremove.symm.trans hremove'
  unfold Managed.step at hstep
  rw [hop, hperform] at hstep
  simp only [setOwner, hto4, Call.policy, Option.some.injEq] at hstep
  subst hstep
  refine .of_limitOf hconsistent (fun q' ↦ ?_) (fun q' ↦ ?_) (fun q' pol' ↦ ?_)
  · change rulesFor (findAndRemoveRule false s.ipam.rules q.bytes).2 q' =
      requiredRules _ _ _ (Function.update s.owner q none q')
    rw [findAndRemoveRule_rules, rulesFor_eraseP, h.rules]
    by_cases hq : q' = q
    · subst hq
      rw [if_pos rfl, Function.update_self, requiredRules, ← List.length_eq_zero_iff,
        List.length_tail]
      have hlen := requiredRules_length s.ipam.defaultPol s.ipam.subnetSize q' (s.owner q')
      omega
    · rw [if_neg hq, Function.update_of_ne hq]
  · dsimp only
    rw [hlimit]
    by_cases hq : q' = q
    · subst hq
      rw [if_pos rfl, Function.update_self]
      rfl
    · rw [if_neg fun heq ↦ hq (Quad.toUint32_injective heq), Function.update_of_ne hq, h.limitOf]
  · dsimp only
    by_cases hq : q' = q
    · subst hq
      rw [Function.update_self]
      intro hsome
      cases hsome
    · rw [Function.update_of_ne hq, Finset.mem_erase]
      exact fun hsome ↦ ⟨fun heq ↦ hq (Quad.toUint32_injective heq), h.allocated q' pol' hsome⟩

theorem MirrorInv.step (h : MirrorInv s) (hok : Serviceable s op) (hstep : s.step op = some t) :
    MirrorInv t := by
  cases haddr : op.1.address s.ipam op.2 with
  | none =>
      rw [Managed.step_refused haddr hstep]
      exact h
  | some addr =>
      cases hpol : op.1.policy with
      | some pol => exact h.take hpol haddr hok hstep
      | none =>
          cases hop : op.1 with
          | alloc _ => rw [hop] at hpol; cases hpol
          | set _ _ => rw [hop] at hpol; cases hpol
          | unset addr' => exact h.returned hop haddr hstep

/-- Without a limiter the limit is missing; with its handle taken it fails, and the rule stays. -/
theorem Mirrors.serviceable (h : Mirrors s) (hstep : s.step op = some t) (ht : Mirrors t) :
    Serviceable s op := by
  intro pol addr q hpol haddr hto4
  by_contra hnot
  obtain ⟨hrate, hlimiter⟩ := not_or.mp hnot
  obtain ⟨q', hto4', hfree, hcases⟩ := Managed.step_take hpol haddr
  cases hto4.symm.trans hto4'
  cases htc : s.ipam.tc with
  | nop =>
      rw [hcases (.ok ()) .nop (by rw [htc]; rfl)] at hstep
      cases hstep
      have hlimits := ht.limits q
      dsimp only at hlimits
      -- the limiter that does nothing reports success
      rw [Function.update_self, requiredLimit, if_neg hrate] at hlimits
      cases hlimits
  | htb tc =>
      push Not at hlimiter
      obtain ⟨hneeds, hclass⟩ := hlimiter tc htc
      obtain ⟨e, he⟩ := TcWrapper.addLimit_error hclass pol.rateLimit
      have hset : s.ipam.tc.setLimit TcWrapper.noFailure addr pol.rateLimit =
          .ok (.error e, .htb tc) := by
        rw [htc, TrafficControl.setLimit, TcWrapper.setLimit, if_neg hrate,
          IP.toUint32_eq_ok.mpr ⟨q, hto4, rfl⟩]
        simp [Except.map, he]
      rw [hcases _ _ hset] at hstep
      cases hstep
      -- the address is free again, but has the rule that was added before the limit failed
      have hrules := ht.rules q
      change rulesFor (s.ipam.withRule q pol).rules q = requiredRules _ _ q (s.owner q) at hrules
      rw [rulesFor_withRule, h.unowned hfree, if_pos rfl, requiredRules, requiredRules, if_pos hneeds]
        at hrules
      simp at hrules

end Step

/-! ## Every run -/

theorem new_mirrors {cfg : Config} {m : IPAM} (hnew : new cfg = .ok (.ok m)) :
    MirrorInv (.init m) := by
  obtain ⟨hrules, hconsistent, hlimit⟩ := new_spec hnew
  refine .of_limitOf hconsistent (fun q ↦ ?_) (fun q ↦ hlimit _) nofun
  refine List.filter_eq_nil_iff.mpr fun r hr heq ↦ hrules r hr ?_
  rw [of_decide_eq_true heq]
  rfl

/-- `Set` of the address that `Alloc` would return does what `Alloc` does, whatever fails. -/
theorem perform_set_eq_alloc {m : IPAM} {draw : UInt32} {pol : Policy} {addr : IP}
    (haddr : Call.address m draw (.alloc pol) = some addr) (env : Env) (draw' : UInt32) :
    m.perform env draw' (.set addr pol) = m.perform env draw (.alloc pol) := by
  have hpol : (Call.alloc pol).policy = some pol := rfl
  obtain ⟨q, hto4, hfree, hrun, hall⟩ := IPAM.perform_take hpol haddr
  have hset : Call.address m draw' (.set addr pol) = some addr := by
    rw [Call.address.eq_1] at haddr
    rw [Call.address.eq_2]
    split at haddr
    · rename_i addr' ipp halloc
      cases haddr
      obtain ⟨a, rfl, hrange⟩ := IPv4pool.alloc_inRange halloc
      cases (Quad.to4_toIP (uint32ToQuad a)).symm.trans hto4
      rw [uint32ToQuad_toUint32] at hfree
      -- what `Alloc` returns is in range and free, so `Set` accepts it
      rw [IPv4pool.set_eq_ok hrun (toUint32_uint32ToIP a) hrange hfree]
    · cases haddr
  have hpol' : (Call.set addr pol).policy = some pol := rfl
  obtain ⟨q', hto4', -, -, hall'⟩ := IPAM.perform_take hpol' hset
  cases hto4.symm.trans hto4'
  rw [hall, hall']

/-- Along a run of calls the rules and the limits mirror the pool exactly if every limit asked for
can be set, and `Set` has the effect of an `Alloc` that returns the address. -/
theorem mirrors_iff_serviceable (cfg : Config) (m : IPAM) (hnew : new cfg = .ok (.ok m))
    (ops : List (Call × UInt32)) :
    (EveryState Managed.step Mirrors ops (.init m) ↔
      EveryStep Managed.step Serviceable ops (.init m)) ∧
    ∀ s, Reachable Managed.step (.init m) s → ∀ draw draw' pol addr env,
      Call.address s.ipam draw (.alloc pol) = some addr →
        s.ipam.perform env draw' (.set addr pol) = s.ipam.perform env draw (.alloc pol) := by
  refine ⟨?_, fun s _ draw draw' pol addr env haddr ↦ ?_⟩
  · have hmirrors : ∀ s : Managed, MirrorInv s → Mirrors s := fun _ hs ↦ hs.toMirrors
    exact everyState_iff_everyStep hmirrors
      (fun s op t hs _ hok hstep ↦ MirrorInv.step hs hok hstep)
      (fun s op t hs _ hstep ht ↦ hs.toMirrors.serviceable hstep ht)
      (fun _ _ ↦ trivial) (new_mirrors hnew)
  · exact perform_set_eq_alloc haddr env draw'

theorem mirrors_limitedSet :
    ∃ m, new limitedConfig = .ok (.ok m) ∧
      EveryState Managed.step Mirrors [(.set peer ⟨.internetOnly, 8000⟩, 0), (.unset peer, 0)]
        (.init m) ∧
      ∃ s, Managed.step (.init m) (.set peer ⟨.internetOnly, 8000⟩, 0) = some s ∧
        s.owner ⟨10, 0, 0, 5⟩ = some ⟨.internetOnly, 8000⟩ := by
  refine ⟨_, rfl, (mirrors_iff_serviceable limitedConfig _ rfl _).1.mpr ?_, _, rfl, rfl⟩
  intro t _
  refine ⟨fun pol addr q hpol haddr hto4 ↦ ?_, fun t' _ ↦ ⟨nofun, trivial⟩⟩
  cases hpol
  cases haddr
  cases hto4
  exact .inr ⟨_, rfl, fun _ ↦ by decide⟩

/-- `10.0.9.0/24` with a limiter; the low bits of 10.0.9.153 are the handle of the default class. -/
def collidingConfig : Config :=
  { limitedConfig with subnet := some ⟨⟨[10, 0, 9, 0]⟩, ⟨[255, 255, 255, 0]⟩⟩ }

/-- Setting 10.0.9.153 fails and leaves a rule for an address that nobody has. -/
theorem colliding_set_leaves_rule :
    ∃ m s, new collidingConfig = .ok (.ok m) ∧
      Managed.step (.init m) (.set ⟨[10, 0, 9, 153]⟩ ⟨.internetOnly, 8000⟩, 0) = some s ∧
      s.ipam.ipp.used = m.ipp.used ∧ s.owner ⟨10, 0, 9, 153⟩ = none ∧
      rulesFor s.ipam.rules ⟨10, 0, 9, 153⟩ = [peerRule 3 ⟨10, 0, 9, 153⟩] ∧ ¬ Mirrors s := by
  refine ⟨_, _, rfl, rfl, by decide, rfl, by decide, fun h ↦ ?_⟩
  have hrules := h.rules ⟨10, 0, 9, 153⟩
  revert hrules
  decide

end CommonLib.IPAM
