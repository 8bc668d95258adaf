import CommonLib.IPAM.Manager
import CommonLib.IPPool.Invariant

/-!
# Which rules and limits an address has

Calls interleave between the calls they make.  What happens to one address depends on the calls on
that address alone, so each address is a small state machine; the rules and the limit fit its owner
as long as no call takes or returns an address that another call is still busy with.
-/

namespace CommonLib.IPAM

open CommonLib.Reasoning CommonLib.Reasoning.NFTables CommonLib.XNet CommonLib.IPPool

/-! ## Calls in flight -/

structure System where
  ipam : IPAM
  flight : Multiset Phase
  -- Who has taken an address from the pool, with the policy they asked for.
  owner : Quad → Option Policy

inductive Event
  | call (c : Call) (draw : UInt32)
  | resume (phase : Phase)

def System.init (m : IPAM) : System := ⟨m, 0, fun _ ↦ none⟩

/-- Every call succeeds whose precondition holds. -/
def Env.working : Env := ⟨false, TcWrapper.noFailure⟩

def Progress.busy : Progress → Option Phase
  | .next phase => some phase
  | .done _ => none

def busyWith : Option Phase → Multiset Phase
  | none => 0
  | some phase => {phase}

def setOwner (owner : Quad → Option Policy) (addr : IP) (pol : Option Policy) :
    Quad → Option Policy :=
  match addr.to4 with
  | none => owner
  | some q => Function.update owner q pol

def Call.policy : Call → Option Policy
  | .alloc pol | .set _ pol => some pol
  | .unset _ => none

/-- The owners after a call's first step, which takes or returns an address if the call goes on. -/
def callOwner (owner : Quad → Option Policy) (c : Call) : Progress → Quad → Option Policy
  | .next phase => setOwner owner phase.addr c.policy
  | .done _ => owner

def resumeOwner (owner : Quad → Option Policy) : Phase → Quad → Option Policy
  | .giveBack addr _ => setOwner owner addr none
  | _ => owner

/-- One call on a component; there is no next state after a crash. -/
def step (s : System) : Event → Option System
  | .call c draw =>
      match s.ipam.call draw c with
      | .error _ => none
      | .ok (progress, m) =>
          some ⟨m, busyWith progress.busy + s.flight, callOwner s.owner c progress⟩
  | .resume phase =>
      if phase ∈ s.flight then
        match s.ipam.resume .working phase with
        | .error _ => none
        | .ok (progress, m) =>
            some ⟨m, busyWith progress.busy + s.flight.erase phase, resumeOwner s.owner phase⟩
      else none

/-! ## What is required -/

def effective (defaultPol access : Access) : Access :=
  if access = .default then defaultPol else access

def NeedsRule (defaultPol : Access) (pol : Policy) : Prop :=
  effective defaultPol pol.access = .internetOnly ∧ defaultPol = .allowAll

instance (defaultPol : Access) (pol : Policy) : Decidable (NeedsRule defaultPol pol) :=
  inferInstanceAs (Decidable (_ ∧ _))

def peerRule (subnetSize : Nat) (q : Quad) : Rule :=
  ⟨q.bytes, isolationExprs q.bytes (q.bytes.take subnetSize)⟩

def requiredRules (defaultPol : Access) (subnetSize : Nat) (q : Quad) :
    Option Policy → List Rule
  | none => []
  | some pol => if NeedsRule defaultPol pol then [peerRule subnetSize q] else []

def requiredLimit : Option Policy → Option Rate
  | none => none
  | some pol => if pol.rateLimit = 0 then none else some pol.rateLimit

def rulesFor (rules : List Rule) (q : Quad) : List Rule := rules.filter (·.userData = q.bytes)

/-- With no call in flight, every allocated address has the rules and the limit its owner's policy
asks for. -/
def Settled (s : System) : Prop :=
  s.flight = 0 → ∀ q : Quad, q.toUint32 ∈ s.ipam.ipp.used →
    rulesFor s.ipam.rules q =
        requiredRules s.ipam.defaultPol s.ipam.subnetSize q (s.owner q) ∧
      s.ipam.tc.limitOf q.toUint32 = requiredLimit (s.owner q)

/-! ## Which runs are safe -/

/-- The address a call takes from the pool or returns to it, if the pool agrees. -/
def Call.address (m : IPAM) (draw : UInt32) : Call → Option IP
  | .alloc _ =>
      match m.ipp.alloc draw with
      | .ok (.ok addr, _) => some addr
      | _ => none
  | .set addr _ =>
      match m.ipp.set addr with
      | .ok (.ok (), _) => some addr
      | _ => none
  | .unset addr =>
      match m.ipp.unset addr with
      | .ok (.ok (), _) => some addr
      | _ => none

/-- A call takes or returns an address that no other call is busy with.  A limit is set only if
there is a limiter, and, after an isolation rule, only if no class has the address's handle. -/
def Undisturbed (s : System) : Event → Prop
  | .call c draw => ∀ addr q, c.address s.ipam draw = some addr → addr.to4 = some q →
      ∀ phase ∈ s.flight, phase.addr.to4 ≠ some q
  | .resume (.limit addr pol) => pol.rateLimit = 0 ∨ ∃ tc, s.ipam.tc = .htb tc ∧
      (NeedsRule s.ipam.defaultPol pol → ∀ q, addr.to4 = some q →
        handleForIP q.toUint32 ∉ tc.classHandles)
  | .resume _ => True

/-! ## One address -/

structure Status where
  used : Bool
  owner : Option Policy
  rules : List Rule
  limit : Option Rate

def statusOf (m : IPAM) (owner : Quad → Option Policy) (q : Quad) : Status where
  used := decide (q.toUint32 ∈ m.ipp.used)
  owner := owner q
  rules := rulesFor m.rules q
  limit := m.tc.limitOf q.toUint32

def flightOn (flight : Multiset Phase) (q : Quad) : Multiset Phase :=
  flight.filter (·.addr.to4 = some q)

/-- What a call in this phase has done to its address; without a call the address is settled. -/
def AddrOk (m : IPAM) (q : Quad) (st : Status) : Option Phase → Prop
  | none =>
      if st.used then
        st.rules = requiredRules m.defaultPol m.subnetSize q st.owner ∧
          st.limit = requiredLimit st.owner
      else st.rules = [] ∧ st.limit = none
  | some (.isolate _ pol) => st.used = true ∧ st.rules = [] ∧ st.limit = none ∧
      ∃ asked, st.owner = some asked ∧ pol.rateLimit = asked.rateLimit ∧
        NeedsRule m.defaultPol pol ∧ NeedsRule m.defaultPol asked
  | some (.limit _ pol) => st.used = true ∧ st.limit = none ∧
      st.rules = requiredRules m.defaultPol m.subnetSize q st.owner ∧
      ∃ asked, st.owner = some asked ∧ pol.rateLimit = asked.rateLimit ∧
        (NeedsRule m.defaultPol pol ↔ NeedsRule m.defaultPol asked)
  | some (.giveBack _ _) => st.used = true ∧ st.rules = [] ∧ st.limit = none
  | some (.unlimit _) => st.used = false ∧ st.rules.length ≤ 1
  | some (.unisolate _) => st.used = false ∧ st.rules.length ≤ 1 ∧ st.limit = none

theorem AddrOk.free {m : IPAM} {q : Quad} {st : Status} (hused : st.used = false)
    (hrules : st.rules = []) (hlimit : st.limit = none) : AddrOk m q st none := by
  rw [AddrOk, if_neg (by rw [hused]; exact Bool.false_ne_true)]
  exact ⟨hrules, hlimit⟩

theorem AddrOk.allocated {m : IPAM} {q : Quad} {st : Status} (hused : st.used = true)
    (hrules : st.rules = requiredRules m.defaultPol m.subnetSize q st.owner)
    (hlimit : st.limit = requiredLimit st.owner) : AddrOk m q st none := by
  rw [AddrOk, if_pos hused]
  exact ⟨hrules, hlimit⟩

def TrafficControl.Consistent : TrafficControl → Prop
  | .nop => True
  | .htb tc => tc.Consistent

structure Inv (s : System) : Prop where
  consistent : s.ipam.tc.Consistent
  isv4 : ∀ phase ∈ s.flight, ∃ q, phase.addr.to4 = some q
  addr : ∀ q, ∃ busy, flightOn s.flight q = busyWith busy ∧
    AddrOk s.ipam q (statusOf s.ipam s.owner q) busy

theorem mem_flightOn {flight : Multiset Phase} {q : Quad} {phase : Phase} :
    phase ∈ flightOn flight q ↔ phase ∈ flight ∧ phase.addr.to4 = some q := by
  rw [flightOn, Multiset.mem_filter]

theorem Inv.idle {s : System} (h : Inv s) {q : Quad}
    (hnone : ∀ phase ∈ s.flight, phase.addr.to4 ≠ some q) :
    flightOn s.flight q = 0 ∧ AddrOk s.ipam q (statusOf s.ipam s.owner q) none := by
  obtain ⟨busy, hflight, hok⟩ := h.addr q
  cases busy with
  | none => exact ⟨hflight, hok⟩
  | some phase =>
      have hmem : phase ∈ flightOn s.flight q := hflight ▸ Multiset.mem_singleton_self phase
      obtain ⟨hin, hq⟩ := mem_flightOn.mp hmem
      exact absurd hq (hnone phase hin)

theorem Inv.busy {s : System} (h : Inv s) {q : Quad} {phase : Phase} (hmem : phase ∈ s.flight)
    (hq : phase.addr.to4 = some q) :
    flightOn s.flight q = {phase} ∧ AddrOk s.ipam q (statusOf s.ipam s.owner q) (some phase) := by
  obtain ⟨busy, hflight, hok⟩ := h.addr q
  have hon : phase ∈ flightOn s.flight q := mem_flightOn.mpr ⟨hmem, hq⟩
  rw [hflight] at hon
  cases busy with
  | none => exact absurd hon (Multiset.notMem_zero phase)
  | some phase' =>
      cases Multiset.mem_singleton.mp hon
      exact ⟨hflight, hok⟩

theorem Inv.settled {s : System} (h : Inv s) : Settled s := by
  intro hflight q hused
  -- without calls in flight every address is idle
  obtain ⟨-, hok⟩ := h.idle (q := q) (by rw [hflight]; exact fun _ hin ↦ nomatch hin)
  have hst : (statusOf s.ipam s.owner q).used = true := decide_eq_true hused
  rw [AddrOk, if_pos hst] at hok
  exact hok

/-! ## A step on one address -/

/-- The manager `m` and the owners `owner` differ from those of `s` at `q` at most. -/
structure OnlyAt (s : System) (q : Quad) (m : IPAM) (owner : Quad → Option Policy) : Prop where
  defaultPol : m.defaultPol = s.ipam.defaultPol
  subnetSize : m.subnetSize = s.ipam.subnetSize
  consistent : m.tc.Consistent
  status : ∀ q' ≠ q, statusOf m owner q' = statusOf s.ipam s.owner q'

section Busy

variable {busy : Option Phase} {q : Quad}

theorem flightOn_busyWith (h : ∀ phase ∈ busy, phase.addr.to4 = some q) :
    flightOn (busyWith busy) q = busyWith busy := by
  cases busy with
  | none => rfl
  | some phase => exact (Multiset.filter_singleton _).trans (if_pos (h phase rfl))

theorem flightOn_busyWith_of_ne (h : ∀ phase ∈ busy, phase.addr.to4 = some q) {q' : Quad}
    (hne : q' ≠ q) : flightOn (busyWith busy) q' = 0 := by
  cases busy with
  | none => rfl
  | some phase =>
      refine (Multiset.filter_singleton _).trans (if_neg ?_)
      rw [h phase rfl]
      exact fun heq ↦ hne (Option.some.inj heq).symm

end Busy

/-- A step on `q` leaves the calls and the states of other addresses as they are. -/
theorem Inv.local {s : System} (h : Inv s) {q : Quad} {m : IPAM} {owner : Quad → Option Policy}
    (honly : OnlyAt s q m owner) {rest : Multiset Phase} (hsub : rest ≤ s.flight)
    (hrest : flightOn rest q = 0) (hothers : ∀ q' ≠ q, flightOn rest q' = flightOn s.flight q')
    {busy : Option Phase} (hbusy : ∀ phase ∈ busy, phase.addr.to4 = some q)
    (hok : AddrOk m q (statusOf m owner q) busy) : Inv ⟨m, busyWith busy + rest, owner⟩ where
  consistent := honly.consistent
  isv4 phase hmem := by
    rcases Multiset.mem_add.mp hmem with hmem | hmem
    · cases busy with
      | none => exact absurd hmem (Multiset.notMem_zero phase)
      | some phase' =>
          cases Multiset.mem_singleton.mp hmem
          exact ⟨q, hbusy phase rfl⟩
    · exact h.isv4 phase (Multiset.mem_of_le hsub hmem)
  addr q' := by
    have hnew : flightOn (busyWith busy + rest) q' =
        flightOn (busyWith busy) q' + flightOn rest q' := Multiset.filter_add ..
    by_cases hne : q' = q
    · subst hne
      refine ⟨busy, ?_, hok⟩
      change flightOn (busyWith busy + rest) q' = _
      rw [hnew, hrest, Multiset.add_zero, flightOn_busyWith hbusy]
    · obtain ⟨busy', hbusy', hok'⟩ := h.addr q'
      refine ⟨busy', ?_, ?_⟩
      · change flightOn (busyWith busy + rest) q' = _
        rw [hnew, flightOn_busyWith_of_ne hbusy hne, Multiset.zero_add, hothers q' hne, hbusy']
      · change AddrOk m q' (statusOf m owner q') busy'
        rw [honly.status q' hne]
        unfold AddrOk at hok' ⊢
        rw [honly.defaultPol, honly.subnetSize]
        exact hok'

/-- A call in flight goes on: the others are not on its address. -/
theorem Inv.resumed {s : System} (h : Inv s) {q : Quad} {phase : Phase} (hmem : phase ∈ s.flight)
    (hq : phase.addr.to4 = some q) {m : IPAM} {owner : Quad → Option Policy}
    (honly : OnlyAt s q m owner) {busy : Option Phase}
    (hbusy : ∀ phase ∈ busy, phase.addr.to4 = some q) (hok : AddrOk m q (statusOf m owner q) busy) :
    Inv ⟨m, busyWith busy + s.flight.erase phase, owner⟩ := by
  have hself : ∀ phase' ∈ some phase, phase'.addr.to4 = some q := by
    rintro phase' ⟨⟩
    exact hq
  have hcons (q' : Quad) : flightOn s.flight q' =
      flightOn (busyWith (some phase)) q' + flightOn (s.flight.erase phase) q' := by
    unfold flightOn busyWith
    rw [← Multiset.filter_add, Multiset.singleton_add, Multiset.cons_erase hmem]
  refine h.local honly (Multiset.erase_le ..) ?_ (fun q' hne ↦ ?_) hbusy hok
  · have heq := hcons q
    rw [(h.busy hmem hq).1, flightOn_busyWith hself] at heq
    simpa [busyWith] using heq
  · rw [hcons q', flightOn_busyWith_of_ne hself hne, Multiset.zero_add]

/-! ## Rules and limits of one address -/

theorem bytes_injective : Function.Injective Quad.bytes := by
  intro p q h
  obtain ⟨pa, pb, pc, pd⟩ := p
  obtain ⟨qa, qb, qc, qd⟩ := q
  simpa [Quad.bytes] using h

theorem rulesFor_append (rules : List Rule) (subnetSize : Nat) (q q' : Quad) :
    rulesFor (rules ++ [peerRule subnetSize q]) q' =
      rulesFor rules q' ++ if q' = q then [peerRule subnetSize q] else [] := by
  unfold rulesFor
  rw [List.filter_append]
  congr 1
  by_cases hq : q' = q
  · subst hq
    rw [if_pos rfl]
    exact List.filter_cons_of_pos (decide_eq_true rfl)
  · rw [if_neg hq]
    have hbytes : q.bytes ≠ q'.bytes := fun heq ↦ hq (bytes_injective heq).symm
    exact List.filter_cons_of_neg fun heq ↦ hbytes (of_decide_eq_true heq)

theorem rulesFor_eraseP (rules : List Rule) (q q' : Quad) :
    rulesFor (rules.eraseP (·.userData = q.bytes)) q' =
      if q' = q then (rulesFor rules q').tail else rulesFor rules q' := by
  induction rules with
  | nil => simp [rulesFor]
  | cons r rules ih =>
      unfold rulesFor at ih ⊢
      by_cases hr : r.userData = q.bytes
      · rw [List.eraseP_cons_of_pos (by simpa using hr)]
        by_cases hq : q' = q
        · subst hq
          rw [if_pos rfl, List.filter_cons_of_pos (by simpa using hr), List.tail_cons]
        · have hbytes : r.userData ≠ q'.bytes := fun heq ↦ hq (bytes_injective (heq ▸ hr))
          rw [if_neg hq, List.filter_cons_of_neg (by simpa using hbytes)]
      · rw [List.eraseP_cons_of_neg (by simpa using hr)]
        by_cases hq : q' = q
        · subst hq
          rw [List.filter_cons_of_neg (by simpa using hr),
            List.filter_cons_of_neg (by simpa using hr), ih]
        · rw [if_neg hq] at ih ⊢
          rw [List.filter_cons, List.filter_cons, ih]

theorem findAndRemoveRule_rules (rules : List Rule) (id : List UInt8) :
    (findAndRemoveRule false rules id).2 = rules.eraseP (·.userData = id) := by
  unfold findAndRemoveRule
  rw [if_neg Bool.false_ne_true]
  split
  · rfl
  · rename_i hnone
    refine (List.eraseP_of_forall_not fun r hr hid ↦ hnone ?_).symm
    exact List.any_eq_true.mpr ⟨r, hr, hid⟩

theorem OnlyAt.of_pool {s : System} (h : Inv s) {q : Quad} {used : Finset UInt32}
    (hused : ∀ a ≠ q.toUint32, a ∈ used ↔ a ∈ s.ipam.ipp.used)
    (pol : Option Policy) : OnlyAt s q { s.ipam with ipp := { s.ipam.ipp with used := used } }
      (Function.update s.owner q pol) where
  defaultPol := rfl
  subnetSize := rfl
  consistent := h.consistent
  status q' hne := by
    have hneq : q'.toUint32 ≠ q.toUint32 := fun heq ↦ hne (Quad.toUint32_injective heq)
    simp only [statusOf, Function.update_of_ne hne, hused _ hneq]

theorem OnlyAt.of_rules {s : System} (h : Inv s) {q : Quad} {rules : List Rule}
    (hrules : ∀ q' ≠ q, rulesFor rules q' = rulesFor s.ipam.rules q') :
    OnlyAt s q { s.ipam with rules := rules } s.owner where
  defaultPol := rfl
  subnetSize := rfl
  consistent := h.consistent
  status q' hne := by simp only [statusOf, hrules q' hne]

theorem OnlyAt.of_tc {s : System} {q : Quad} {tc : TrafficControl}
    (hconsistent : tc.Consistent)
    (hlimit : ∀ a ≠ q.toUint32, tc.limitOf a = s.ipam.tc.limitOf a) :
    OnlyAt s q { s.ipam with tc := tc } s.owner where
  defaultPol := rfl
  subnetSize := rfl
  consistent := hconsistent
  status q' hne := by
    simp only [statusOf, hlimit _ fun heq ↦ hne (Quad.toUint32_injective heq)]

/-! ## The first step of a call -/

theorem needsRule_iff {defaultPol : Access} {pol : Policy} :
    NeedsRule defaultPol pol ↔ pol.access = .internetOnly ∧ defaultPol = .allowAll := by
  unfold NeedsRule effective
  apply and_congr_left
  rintro rfl
  split
  · rename_i hdefault
    rw [hdefault]
    exact iff_of_false nofun nofun
  · rfl

theorem needsRule_withDefault (m : IPAM) (pol : Policy) :
    NeedsRule m.defaultPol (m.withDefault pol) ↔ NeedsRule m.defaultPol pol := by
  unfold IPAM.withDefault
  split
  · rename_i hdefault
    rw [needsRule_iff, NeedsRule, effective, if_pos hdefault]
  · rfl

theorem needsRule_allocatePolicy (m : IPAM) (pol : Policy) :
    NeedsRule m.defaultPol (m.allocatePolicy pol) ↔ NeedsRule m.defaultPol pol := by
  refine Iff.trans ?_ (needsRule_withDefault m pol)
  unfold IPAM.allocatePolicy
  dsimp only
  split
  · -- The fallback applies when the default already isolates everyone.
    rename_i hfallback
    rw [needsRule_iff, needsRule_iff, hfallback.1]
    exact iff_of_false (fun h ↦ nomatch h.2) (fun h ↦ nomatch h.2)
  · rfl

theorem withDefault_rateLimit (m : IPAM) (pol : Policy) :
    (m.withDefault pol).rateLimit = pol.rateLimit := by
  unfold IPAM.withDefault
  split <;> rfl

theorem allocatePolicy_rateLimit (m : IPAM) (pol : Policy) :
    (m.allocatePolicy pol).rateLimit = pol.rateLimit := by
  unfold IPAM.allocatePolicy
  dsimp only
  split
  · exact withDefault_rateLimit m pol
  · exact withDefault_rateLimit m pol

theorem applyPolicy_addr (m : IPAM) (addr : IP) (pol : Policy) :
    (m.applyPolicy addr pol).addr = addr := by
  unfold IPAM.applyPolicy
  split <;> rfl

/-- What the first step of a call can be: it takes an address, it returns one, or the pool
refuses. -/
inductive Called (m : IPAM) (draw : UInt32) : Call → Progress → IPAM → Prop
  -- `pol` is what `Alloc` or `Set` makes of the policy that was asked for
  | taken {c : Call} {addr : IP} {q : Quad} {asked pol : Policy} (hasked : c.policy = some asked)
      (haddr : c.address m draw = some addr) (hto4 : addr.to4 = some q)
      (hfree : q.toUint32 ∉ m.ipp.used) (hrun : m.ipp.running = true)
      (hrate : pol.rateLimit = asked.rateLimit)
      (hneeds : NeedsRule m.defaultPol pol ↔ NeedsRule m.defaultPol asked) :
      Called m draw c (.next (m.applyPolicy addr pol))
        { m with ipp := { m.ipp with used := insert q.toUint32 m.ipp.used } }
  | returned {addr : IP} {q : Quad} (haddr : Call.address m draw (.unset addr) = some addr)
      (hto4 : addr.to4 = some q) (hused : q.toUint32 ∈ m.ipp.used) :
      Called m draw (.unset addr) (.next (.unlimit addr))
        { m with ipp := { m.ipp with used := m.ipp.used.erase q.toUint32 } }
  | refused {c : Call} {e : XError.GoError} (haddr : c.address m draw = none) :
      Called m draw c (.done (.error (.pool e))) m

theorem call_called {m m' : IPAM} {draw : UInt32} {c : Call} {p : Progress}
    (hcall : m.call draw c = .ok (p, m')) : Called m draw c p m' := by
  cases c with
  | alloc pol =>
      rw [IPAM.call] at hcall
      cases halloc : m.ipp.alloc draw with
      | error e => rw [halloc] at hcall; cases hcall
      | ok out =>
          obtain ⟨r, ipp⟩ := out
          rw [halloc] at hcall
          rcases IPv4pool.alloc_cases halloc with ⟨a, rfl, hfree, rfl⟩ | ⟨⟨e, rfl⟩, rfl⟩
          · cases hcall
            rw [← uint32ToQuad_toUint32 a] at hfree
            have hcalled : Called m draw (.alloc pol)
                (.next (m.applyPolicy (uint32ToIP a) (m.allocatePolicy pol))) _ :=
              .taken rfl (by rw [Call.address, halloc]) (Quad.to4_toIP _) hfree
                (IPv4pool.running_of_alloc halloc) (allocatePolicy_rateLimit m pol)
                (needsRule_allocatePolicy m pol)
            rw [uint32ToQuad_toUint32] at hcalled
            exact hcalled
          · cases hcall
            exact .refused (by rw [Call.address, halloc])
  | set addr pol =>
      rw [IPAM.call] at hcall
      cases hset : m.ipp.set addr with
      | error e => rw [hset] at hcall; cases hcall
      | ok out =>
          obtain ⟨r, ipp⟩ := out
          rw [hset] at hcall
          rcases IPv4pool.set_cases hset with ⟨a, rfl, ha, hfree, rfl⟩ | ⟨⟨e, rfl⟩, rfl⟩
          · cases hcall
            obtain ⟨q, hto4, rfl⟩ := IP.toUint32_eq_ok.mp ha
            exact .taken rfl (by rw [Call.address, hset]) hto4 hfree
              (IPv4pool.running_of_set hset) (withDefault_rateLimit m pol)
              (needsRule_withDefault m pol)
          · cases hcall
            exact .refused (by rw [Call.address, hset])
  | unset addr =>
      rw [IPAM.call] at hcall
      cases hunset : m.ipp.unset addr with
      | error e => rw [hunset] at hcall; cases hcall
      | ok out =>
          obtain ⟨r, ipp⟩ := out
          rw [hunset] at hcall
          rcases IPv4pool.unset_cases hunset with ⟨a, rfl, ha, hused, rfl⟩ | ⟨⟨e, rfl⟩, -, rfl⟩
          · cases hcall
            obtain ⟨q, hto4, rfl⟩ := IP.toUint32_eq_ok.mp ha
            exact .returned (by rw [Call.address, hunset]) hto4 hused
          · cases hcall
            exact .refused (by rw [Call.address, hunset])

/-- A call that gets an address from the pool does not crash. -/
theorem call_of_address {m : IPAM} {draw : UInt32} {c : Call} {addr : IP}
    (haddr : c.address m draw = some addr) : ∃ p m', m.call draw c = .ok (p, m') := by
  cases c <;>
  · rw [Call.address] at haddr
    split at haddr
    next hpool => exact ⟨_, _, by rw [IPAM.call, hpool]; rfl⟩
    next => cases haddr

/-- An address is taken from the pool. -/
theorem Inv.taken {s : System} (h : Inv s) {q : Quad} {addr : IP} (haddr : addr.to4 = some q)
    (hidle : ∀ phase ∈ s.flight, phase.addr.to4 ≠ some q) (hfree : q.toUint32 ∉ s.ipam.ipp.used)
    {pol asked : Policy} (hrate : pol.rateLimit = asked.rateLimit)
    (hneeds : NeedsRule s.ipam.defaultPol pol ↔ NeedsRule s.ipam.defaultPol asked) :
    Inv ⟨{ s.ipam with ipp := { s.ipam.ipp with used := insert q.toUint32 s.ipam.ipp.used } },
      busyWith (some (s.ipam.applyPolicy addr pol)) + s.flight,
      setOwner s.owner addr (some asked)⟩ := by
  obtain ⟨hflight, hok⟩ := h.idle hidle
  rw [setOwner, haddr]
  refine h.local (OnlyAt.of_pool h (fun a hne ↦ ?_) (some asked)) le_rfl hflight (fun _ _ ↦ rfl)
    ?_ ?_
  · rw [Finset.mem_insert, or_iff_right hne]
  · rintro phase ⟨⟩
    rw [applyPolicy_addr]
    exact haddr
  · -- a free address has neither rules nor a limit to inherit
    have hst : ¬ (statusOf s.ipam s.owner q).used = true := by simpa [statusOf] using hfree
    rw [AddrOk, if_neg hst] at hok
    obtain ⟨hrules, hlimit⟩ := hok
    have hused : decide (q.toUint32 ∈ insert q.toUint32 s.ipam.ipp.used) = true := by simp
    unfold IPAM.applyPolicy
    split
    · rename_i hrule
      have hpol : NeedsRule s.ipam.defaultPol pol := needsRule_iff.mpr hrule
      exact ⟨hused, hrules, hlimit, asked, Function.update_self .., hrate, hpol, hneeds.mp hpol⟩
    · rename_i hrule
      have hpol : ¬ NeedsRule s.ipam.defaultPol asked :=
        fun hasked ↦ hrule (needsRule_iff.mp (hneeds.mpr hasked))
      refine ⟨hused, hlimit, hrules.trans ?_, asked, Function.update_self .., hrate, hneeds⟩
      simp only [statusOf, Function.update_self, requiredRules, if_neg hpol]

theorem requiredRules_length (defaultPol : Access) (subnetSize : Nat) (q : Quad)
    (owner : Option Policy) : (requiredRules defaultPol subnetSize q owner).length ≤ 1 := by
  cases owner with
  | none => exact Nat.zero_le 1
  | some pol =>
      rw [requiredRules]
      split
      · exact le_rfl
      · exact Nat.zero_le 1

/-- An address is returned to the pool by `free`. -/
theorem Inv.returned {s : System} (h : Inv s) {q : Quad} {addr : IP} (haddr : addr.to4 = some q)
    (hidle : ∀ phase ∈ s.flight, phase.addr.to4 ≠ some q) (hused : q.toUint32 ∈ s.ipam.ipp.used) :
    Inv ⟨{ s.ipam with ipp := { s.ipam.ipp with used := s.ipam.ipp.used.erase q.toUint32 } },
      busyWith (some (.unlimit addr)) + s.flight, setOwner s.owner addr none⟩ := by
  obtain ⟨hflight, hok⟩ := h.idle hidle
  rw [setOwner, haddr]
  refine h.local (OnlyAt.of_pool h (fun a hne ↦ ?_) none) le_rfl hflight (fun _ _ ↦ rfl) ?_ ?_
  · rw [Finset.mem_erase, and_iff_right hne]
  · rintro phase ⟨⟩
    exact haddr
  · have hst : (statusOf s.ipam s.owner q).used = true := decide_eq_true hused
    rw [AddrOk, if_pos hst] at hok
    refine ⟨by simp [statusOf], ?_⟩
    change (statusOf s.ipam s.owner q).rules.length ≤ 1
    rw [hok.1]
    exact requiredRules_length ..

theorem Inv.unchanged {s : System} (h : Inv s) : Inv ⟨s.ipam, busyWith none + s.flight, s.owner⟩ := by
  rw [busyWith, Multiset.zero_add]
  exact h

theorem call_inv {s : System} (h : Inv s) {c : Call} {draw : UInt32}
    (hok : Undisturbed s (.call c draw)) {progress : Progress} {m : IPAM}
    (hcall : s.ipam.call draw c = .ok (progress, m)) :
    Inv ⟨m, busyWith progress.busy + s.flight, callOwner s.owner c progress⟩ := by
  cases call_called hcall with
  | taken hasked haddr hto4 hfree hrun hrate hneeds =>
      rw [Progress.busy, callOwner, applyPolicy_addr, hasked]
      exact h.taken hto4 (hok _ _ haddr hto4) hfree hrate hneeds
  | returned haddr hto4 hused => exact h.returned hto4 (hok _ _ haddr hto4) hused
  | refused => exact h.unchanged

/-! ## The later steps -/

theorem isolate_inv {s : System} (h : Inv s) {addr : IP} {pol : Policy}
    (hmem : Phase.isolate addr pol ∈ s.flight) {progress : Progress} {m : IPAM}
    (hresume : s.ipam.resume .working (.isolate addr pol) = .ok (progress, m)) :
    Inv ⟨m, busyWith progress.busy + s.flight.erase (.isolate addr pol), s.owner⟩ := by
  obtain ⟨q, haddr⟩ := h.isv4 _ hmem
  change addr.to4 = some q at haddr
  obtain ⟨hused, hrules, hlimit, asked, howner, hrate, hpol, hasked⟩ := (h.busy hmem haddr).2
  have hrule : newIsolatePeerRule s.ipam.subnetSize addr = .ok (peerRule s.ipam.subnetSize q) := by
    rw [newIsolatePeerRule, haddr]
    rfl
  rw [IPAM.resume, hrule] at hresume
  cases hresume
  refine h.resumed hmem haddr (OnlyAt.of_rules h fun q' hne ↦ ?_) ?_ ?_
  · rw [rulesFor_append, if_neg hne, List.append_nil]
  · rintro phase ⟨⟩
    exact haddr
  · refine ⟨hused, hlimit, ?_, asked, howner, hrate, iff_of_true hpol hasked⟩
    change rulesFor (s.ipam.rules ++ [peerRule s.ipam.subnetSize q]) q =
      requiredRules _ _ _ (s.owner q)
    have hnone : rulesFor s.ipam.rules q = [] := hrules
    have hsome : s.owner q = some asked := howner
    rw [rulesFor_append, hnone, if_pos rfl, hsome, requiredRules, if_pos hasked, List.nil_append]

theorem giveBack_inv {s : System} (h : Inv s) {addr : IP} {e : CallError}
    (hmem : Phase.giveBack addr e ∈ s.flight) {progress : Progress} {m : IPAM}
    (hresume : s.ipam.resume .working (.giveBack addr e) = .ok (progress, m)) :
    Inv ⟨m, busyWith progress.busy + s.flight.erase (.giveBack addr e),
      setOwner s.owner addr none⟩ := by
  obtain ⟨q, haddr⟩ := h.isv4 _ hmem
  change addr.to4 = some q at haddr
  obtain ⟨hused, hrules, hlimit⟩ := (h.busy hmem haddr).2
  have hmemUsed : q.toUint32 ∈ s.ipam.ipp.used := of_decide_eq_true hused
  rw [IPAM.resume] at hresume
  cases hunset : s.ipam.ipp.unset addr with
  | error e => rw [hunset] at hresume; cases hresume
  | ok out =>
      obtain ⟨r, ipp⟩ := out
      rw [hunset] at hresume
      cases hresume
      rw [setOwner, haddr]
      rcases IPv4pool.unset_cases hunset with ⟨a, -, ha, -, rfl⟩ | ⟨-, hnot, -⟩
      · obtain ⟨q', haddr', rfl⟩ := IP.toUint32_eq_ok.mp ha
        cases haddr.symm.trans haddr'
        refine h.resumed hmem haddr (OnlyAt.of_pool h (fun a hne ↦ ?_) none) nofun ?_
        · rw [Finset.mem_erase, and_iff_right hne]
        · exact AddrOk.free (by simp [statusOf]) hrules hlimit
      · -- the pool refuses only an address that is not taken
        exact absurd hmemUsed (hnot _ (IP.toUint32_eq_ok.mpr ⟨q, haddr, rfl⟩))

theorem unisolate_inv {s : System} (h : Inv s) {addr : IP}
    (hmem : Phase.unisolate addr ∈ s.flight) {progress : Progress} {m : IPAM}
    (hresume : s.ipam.resume .working (.unisolate addr) = .ok (progress, m)) :
    Inv ⟨m, busyWith progress.busy + s.flight.erase (.unisolate addr), s.owner⟩ := by
  obtain ⟨q, haddr⟩ := h.isv4 _ hmem
  change addr.to4 = some q at haddr
  obtain ⟨hused, hrules, hlimit⟩ := (h.busy hmem haddr).2
  rw [IPAM.resume] at hresume
  cases hresume
  have hremove : ∀ q', rulesFor (findAndRemoveRule Env.working.nft s.ipam.rules
      ((addr.to4.map (·.bytes)).getD [])).2 q' =
      if q' = q then (rulesFor s.ipam.rules q').tail else rulesFor s.ipam.rules q' := by
    intro q'
    rw [haddr]
    exact (congrArg (rulesFor · q') (findAndRemoveRule_rules _ _)).trans (rulesFor_eraseP _ q q')
  refine h.resumed hmem haddr (OnlyAt.of_rules h fun q' hne ↦ ?_) nofun ?_
  · rw [hremove, if_neg hne]
  · refine AddrOk.free hused ?_ hlimit
    change rulesFor (findAndRemoveRule Env.working.nft s.ipam.rules _).2 q = []
    -- one rule is removed, and there was at most one
    have hlen : (rulesFor s.ipam.rules q).length ≤ 1 := hrules
    rw [hremove, if_pos rfl, ← List.length_eq_zero_iff, List.length_tail]
    omega

theorem setLimit_spec {tc : TrafficControl} (h : tc.Consistent) {addr : IP} {q : Quad}
    (haddr : addr.to4 = some q) (hnone : tc.limitOf q.toUint32 = none) {rate : Rate}
    (hlimiter : rate = 0 ∨ ∃ htb, tc = .htb htb) :
    (∃ tc', tc.setLimit TcWrapper.noFailure addr rate = .ok (.ok (), tc') ∧ tc'.Consistent ∧
      ∀ a, tc'.limitOf a =
        if a = q.toUint32 then (if rate = 0 then none else some rate) else tc.limitOf a) ∨
    ∃ e htb, tc = .htb htb ∧ handleForIP q.toUint32 ∈ htb.classHandles ∧ rate ≠ 0 ∧
      tc.setLimit TcWrapper.noFailure addr rate = .ok (.error e, tc) := by
  have hsame : rate = 0 → ∀ a, tc.limitOf a =
      if a = q.toUint32 then (if rate = 0 then none else some rate) else tc.limitOf a := by
    intro hrate a
    split
    · rename_i ha
      rw [ha, hnone]
    · rfl
  cases tc with
  | nop =>
      rcases hlimiter with hrate | ⟨htb, hhtb⟩
      · exact .inl ⟨.nop, rfl, trivial, hsame hrate⟩
      · cases hhtb
  | htb tc =>
      have hip : addr.toUint32 = .ok q.toUint32 := IP.toUint32_eq_ok.mpr ⟨q, haddr, rfl⟩
      by_cases hrate : rate = 0
      · refine .inl ⟨.htb tc, ?_, h, hsame hrate⟩
        rw [TrafficControl.setLimit, TcWrapper.setLimit, if_pos hrate]
        rfl
      · rw [TrafficControl.setLimit, TcWrapper.setLimit, if_neg hrate, hip]
        by_cases hclass : handleForIP q.toUint32 ∈ tc.classHandles
        · -- another address has the same handle: `ClassAdd` fails
          obtain ⟨e, he⟩ := TcWrapper.addLimit_error hclass rate
          refine .inr ⟨e, tc, rfl, hclass, hrate, ?_⟩
          simp [Except.map, he]
        · obtain ⟨tc', heq, hconsistent, hlimit⟩ := TcWrapper.addLimit_spec h hnone hclass rate
          refine .inl ⟨.htb tc', ?_, hconsistent, fun a ↦ ?_⟩
          · simp [Except.map, heq]
          · rw [if_neg hrate]
            exact hlimit a

theorem removeLimit_spec {tc : TrafficControl} (h : tc.Consistent) {addr : IP} {q : Quad}
    (haddr : addr.to4 = some q) :
    ∃ r tc', tc.removeLimit TcWrapper.noFailure addr = .ok (r, tc') ∧ tc'.Consistent ∧
      ∀ a, tc'.limitOf a = if a = q.toUint32 then none else tc.limitOf a := by
  cases tc with
  | nop => exact ⟨.ok (), .nop, rfl, trivial, fun a ↦ (ite_self _).symm⟩
  | htb tc =>
      obtain ⟨r, tc', heq, hconsistent, hlimit⟩ := TcWrapper.dropLimit_spec h q.toUint32
      refine ⟨r, .htb tc', ?_, hconsistent, hlimit⟩
      rw [TrafficControl.removeLimit, TcWrapper.removeLimit,
        IP.toUint32_eq_ok.mpr ⟨q, haddr, rfl⟩]
      simp [Except.map, heq]

theorem unlimit_inv {s : System} (h : Inv s) {addr : IP}
    (hmem : Phase.unlimit addr ∈ s.flight) {progress : Progress} {m : IPAM}
    (hresume : s.ipam.resume .working (.unlimit addr) = .ok (progress, m)) :
    Inv ⟨m, busyWith progress.busy + s.flight.erase (.unlimit addr), s.owner⟩ := by
  obtain ⟨q, haddr⟩ := h.isv4 _ hmem
  change addr.to4 = some q at haddr
  obtain ⟨hused, hrules⟩ := (h.busy hmem haddr).2
  obtain ⟨r, tc, hremove, hconsistent, hlimit⟩ := removeLimit_spec h.consistent haddr
  rw [IPAM.resume, Env.working, hremove] at hresume
  cases hresume
  refine h.resumed hmem haddr (OnlyAt.of_tc hconsistent fun a hne ↦ ?_) ?_ ⟨hused, hrules, ?_⟩
  · rw [hlimit, if_neg hne]
  · rintro phase ⟨⟩
    exact haddr
  · change tc.limitOf q.toUint32 = none
    rw [hlimit, if_pos rfl]

theorem limit_inv {s : System} (h : Inv s) {addr : IP} {pol : Policy}
    (hmem : Phase.limit addr pol ∈ s.flight) (hok : Undisturbed s (.resume (.limit addr pol)))
    {progress : Progress} {m : IPAM}
    (hresume : s.ipam.resume .working (.limit addr pol) = .ok (progress, m)) :
    Inv ⟨m, busyWith progress.busy + s.flight.erase (.limit addr pol), s.owner⟩ := by
  obtain ⟨q, haddr⟩ := h.isv4 _ hmem
  change addr.to4 = some q at haddr
  obtain ⟨hused, hnone, hrules, asked, howner, hrate, hneeds⟩ := (h.busy hmem haddr).2
  have howner' : s.owner q = some asked := howner
  have hlimiter : pol.rateLimit = 0 ∨ ∃ htb, s.ipam.tc = .htb htb :=
    hok.imp_right fun ⟨htb, hhtb, _⟩ ↦ ⟨htb, hhtb⟩
  rw [IPAM.resume, Env.working] at hresume
  rcases setLimit_spec h.consistent haddr hnone hlimiter with
    ⟨tc, hset, hconsistent, hlimit⟩ | ⟨e, htb, hhtb, hclass, hnonzero, hset⟩
  · rw [hset] at hresume
    cases hresume
    refine h.resumed hmem haddr (OnlyAt.of_tc hconsistent fun a hne ↦ ?_) nofun
      (AddrOk.allocated hused hrules ?_)
    · rw [hlimit, if_neg hne]
    · change tc.limitOf q.toUint32 = requiredLimit (s.owner q)
      rw [hlimit, if_pos rfl, howner', requiredLimit, hrate]
  · -- The handle is taken, so the address had no rule to leave behind.
    rw [hset] at hresume
    cases hresume
    have hnorule : ¬ NeedsRule s.ipam.defaultPol asked := by
      intro hasked
      rcases hok with hzero | ⟨htb', hhtb', hfree⟩
      · exact hnonzero hzero
      · cases hhtb.symm.trans hhtb'
        exact hfree (hneeds.mpr hasked) q haddr hclass
    refine h.resumed hmem haddr (OnlyAt.of_tc h.consistent fun _ _ ↦ rfl) ?_ ⟨hused, ?_, hnone⟩
    · rintro phase ⟨⟩
      exact haddr
    · refine Eq.trans hrules ?_
      rw [howner, requiredRules, if_neg hnorule]

/-! ## Runs -/

theorem step_inv {s t : System} {e : Event} (h : Inv s) (hok : Undisturbed s e)
    (hstep : step s e = some t) : Inv t := by
  cases e with
  | call c draw =>
      rw [step] at hstep
      cases hcall : s.ipam.call draw c with
      | error _ => rw [hcall] at hstep; cases hstep
      | ok out =>
          rw [hcall] at hstep
          cases hstep
          exact call_inv h hok hcall
  | resume phase =>
      rw [step] at hstep
      split at hstep
      · rename_i hmem
        cases hresume : s.ipam.resume .working phase with
        | error _ => rw [hresume] at hstep; cases hstep
        | ok out =>
            rw [hresume] at hstep
            cases hstep
            cases phase with
            | isolate addr pol => exact isolate_inv h hmem hresume
            | limit addr pol => exact limit_inv h hmem hok hresume
            | giveBack addr e => exact giveBack_inv h hmem hresume
            | unlimit addr => exact unlimit_inv h hmem hresume
            | unisolate addr => exact unisolate_inv h hmem hresume
      · cases hstep

theorem initialRules_userData {defaultPolicy : Access} {subnet : IPNet} {rules : List Rule}
    (h : initialRules defaultPolicy subnet = .ok rules) : ∀ r ∈ rules, r.userData.length ≠ 4 := by
  unfold initialRules at h
  split at h
  · unfold newIsolateAllRule at h
    split at h
    · cases h
    · cases h
      simp
  · cases h
    simp

theorem initialTrafficControl_spec (totalBandwidth : Option Rate) :
    (initialTrafficControl totalBandwidth).Consistent ∧
      ∀ a, (initialTrafficControl totalBandwidth).limitOf a = none := by
  cases totalBandwidth with
  | none => exact ⟨trivial, fun _ ↦ rfl⟩
  | some rate => exact ⟨TcWrapper.new_consistent rate, fun _ ↦ rfl⟩

/-- A new manager has no rule for a peer and no limit. -/
theorem new_spec {cfg : Config} {m : IPAM} (hnew : new cfg = .ok (.ok m)) :
    (∀ r ∈ m.rules, r.userData.length ≠ 4) ∧ m.tc.Consistent ∧ ∀ a, m.tc.limitOf a = none := by
  unfold new at hnew
  simp only [bind, Except.bind, pure, Except.pure] at hnew
  split at hnew
  · cases hnew
  split at hnew
  · cases hnew
  split at hnew
  · cases hnew
  split at hnew
  · cases hnew
  split at hnew
  · cases hnew
  split at hnew
  · cases hnew
  split at hnew
  · cases hnew
  rename_i rules hrules
  cases hnew
  exact ⟨initialRules_userData hrules, initialTrafficControl_spec _⟩

theorem new_inv {cfg : Config} {m : IPAM} (hnew : new cfg = .ok (.ok m)) : Inv (.init m) := by
  obtain ⟨hrules, hconsistent, hlimit⟩ := new_spec hnew
  refine ⟨hconsistent, nofun, fun q ↦ ⟨none, rfl, ?_⟩⟩
  -- the rules of the subnet have an id that is no address
  have hnone : (statusOf m (fun _ ↦ none) q).rules = [] := by
    refine List.filter_eq_nil_iff.mpr fun r hr heq ↦ hrules r hr ?_
    rw [of_decide_eq_true heq]
    rfl
  by_cases hused : q.toUint32 ∈ m.ipp.used
  · exact AddrOk.allocated (decide_eq_true hused) hnone (hlimit _)
  · exact AddrOk.free (decide_eq_false hused) hnone (hlimit _)

theorem settled_of_undisturbed (cfg : Config) (m : IPAM) (hnew : new cfg = .ok (.ok m))
    (events : List Event) (hrun : EveryStep step Undisturbed events (.init m)) :
    EveryState step Settled events (.init m) :=
  (hrun.everyState (fun _ _ _ h hok hstep ↦ step_inv h hok hstep) (new_inv hnew)).imp
    fun _ h ↦ h.settled

/-- `10.0.0.0/24`, where peers may reach each other unless their policy says otherwise. -/
def openConfig : Config where
  subnet := some ⟨⟨[10, 0, 0, 0]⟩, ⟨[255, 255, 255, 0]⟩⟩
  interface := "wg0"
  defaultPolicy := .allowAll
  rateLimiter := none

def peer : IP := ⟨[10, 0, 0, 5]⟩

theorem settled_oneSet :
    ∃ m, new openConfig = .ok (.ok m) ∧
      EveryState step Settled [.call (.set peer ⟨.internetOnly, 0⟩) 0,
        .resume (.isolate peer ⟨.internetOnly, 0⟩), .resume (.limit peer ⟨.internetOnly, 0⟩)]
        (.init m) ∧
      ∃ s, runSteps step [.call (.set peer ⟨.internetOnly, 0⟩) 0,
        .resume (.isolate peer ⟨.internetOnly, 0⟩), .resume (.limit peer ⟨.internetOnly, 0⟩)]
        (.init m) = some s ∧ s.flight = 0 := by
  refine ⟨_, rfl, settled_of_undisturbed openConfig _ rfl _ ?_, _, rfl, rfl⟩
  intro t _
  refine ⟨fun _ _ _ _ phase hmem ↦ absurd hmem (Multiset.notMem_zero phase), fun t' _ ↦ ?_⟩
  exact ⟨trivial, fun t'' _ ↦ ⟨.inl rfl, trivial⟩⟩

/-- The address is returned and taken again by another call before the first one removes the rule
it finds for it: the new owner's. -/
theorem late_removal_unisolates :
    ∃ m, new openConfig = .ok (.ok m) ∧
      ∃ s, runSteps step [.call (.set peer ⟨.allowAll, 0⟩) 0,
          .resume (.limit peer ⟨.allowAll, 0⟩), .call (.unset peer) 0,
          .call (.set peer ⟨.internetOnly, 0⟩) 0, .resume (.isolate peer ⟨.internetOnly, 0⟩),
          .resume (.limit peer ⟨.internetOnly, 0⟩), .resume (.unlimit peer),
          .resume (.unisolate peer)] (.init m) = some s ∧
        s.flight = 0 ∧ s.owner ⟨10, 0, 0, 5⟩ = some ⟨.internetOnly, 0⟩ ∧
        rulesFor s.ipam.rules ⟨10, 0, 0, 5⟩ = [] ∧ ¬ Settled s := by
  refine ⟨_, rfl, _, rfl, rfl, rfl, by decide, fun h ↦ ?_⟩
  have hrules := (h rfl ⟨10, 0, 0, 5⟩ (by decide)).1
  revert hrules
  decide

end CommonLib.IPAM
