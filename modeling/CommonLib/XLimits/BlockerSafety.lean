import CommonLib.XLimits.Blocker

/-!
# At most `maxConn` holders of an id

The usage count of an id's consumer is the number of calls that have taken it and not yet put it
back, whether they wait, hold, have failed or have released.  So an entry is dropped only when no
call refers to it, and all calls for one id share one semaphore.
-/

namespace CommonLib.XLimits

open CommonLib.Reasoning

variable {Id : Type} [DecidableEq Id]

/-- The consumer `r` stored for `id` counts the calls for `id`. -/
structure Entry (maxConn : Int) (s : System Id) (id : Id) (r : Ref) : Prop where
  usage : (s.blocker.heap r).usage = outstanding s.calls id
  live : 0 < outstanding s.calls id
  size : (s.blocker.heap r).size = maxConn
  cur : (s.blocker.heap r).cur = holders s.calls id
  room : (holders s.calls id : Int) ≤ max maxConn 0
  alloc : r < s.blocker.fresh

/-- An entry whose consumer and calls are untouched stays as it is. -/
theorem Entry.congr {maxConn : Int} {s t : System Id} {id : Id} {r : Ref}
    (he : Entry maxConn s id r) (hheap : t.blocker.heap r = s.blocker.heap r)
    (hout : outstanding t.calls id = outstanding s.calls id)
    (hhold : holders t.calls id = holders s.calls id)
    (hfresh : s.blocker.fresh ≤ t.blocker.fresh) : Entry maxConn t id r where
  usage := by rw [hheap, hout, he.usage]
  live := by rw [hout]; exact he.live
  size := by rw [hheap, he.size]
  cur := by rw [hheap, hhold, he.cur]
  room := by rw [hhold]; exact he.room
  alloc := lt_of_lt_of_le he.alloc hfresh

structure Inv (maxConn : Int) (s : System Id) : Prop where
  limit : s.blocker.maxConn = maxConn
  owned : ∀ c ∈ s.calls, s.blocker.consumers c.id = some c.ref
  entry : ∀ id r, s.blocker.consumers id = some r → Entry maxConn s id r
  inj : ∀ id id' r, s.blocker.consumers id = some r → s.blocker.consumers id' = some r → id = id'

theorem inv_init (maxConn : Int) : Inv maxConn (System.init maxConn : System Id) where
  limit := rfl
  owned := by simp [System.init]
  entry := by simp [System.init, Blocker.new]
  inj := by simp [System.init, Blocker.new]

/-! ## Counting calls -/

theorem outstanding_eq_zero {maxConn : Int} {s : System Id} (h : Inv maxConn s) {id : Id}
    (hid : s.blocker.consumers id = none) : outstanding s.calls id = 0 := by
  rw [outstanding, Multiset.countP_eq_zero]
  intro c hc heq
  have howned := h.owned c hc
  rw [heq, hid] at howned
  cases howned

theorem holders_le_outstanding (calls : Multiset (Call Id)) (id : Id) :
    holders calls id ≤ outstanding calls id := by
  simp only [holders, outstanding, Multiset.countP_eq_card_filter]
  exact Multiset.card_le_card (Multiset.monotone_filter_right _ fun _ h ↦ h.1)

theorem outstanding_cons (call : Call Id) (calls : Multiset (Call Id)) (id : Id) :
    outstanding (call ::ₘ calls) id = outstanding calls id + if call.id = id then 1 else 0 := by
  rw [outstanding, Multiset.countP_cons, ← outstanding]

theorem holders_cons_waiting (calls : Multiset (Call Id)) (id id' : Id) (r : Ref) :
    holders (⟨id, r, .waiting⟩ ::ₘ calls) id' = holders calls id' := by
  rw [holders, Multiset.countP_cons, if_neg (by simp), Nat.add_zero, ← holders]

theorem mem_setPhase {calls : Multiset (Call Id)} {call c : Call Id} {phase : Phase}
    (hcall : call ∈ calls) (hc : c ∈ setPhase calls call phase) :
    ∃ d ∈ calls, d.id = c.id ∧ d.ref = c.ref := by
  rcases Multiset.mem_cons.mp hc with rfl | hc
  · exact ⟨call, hcall, rfl, rfl⟩
  · exact ⟨c, Multiset.mem_of_mem_erase hc, rfl, rfl⟩

theorem outstanding_setPhase {calls : Multiset (Call Id)} {call : Call Id} (phase : Phase)
    (hcall : call ∈ calls) (id : Id) :
    outstanding (setPhase calls call phase) id = outstanding calls id := by
  simp only [outstanding, setPhase]
  conv_rhs => rw [← Multiset.cons_erase hcall]
  simp only [Multiset.countP_cons]

/-- A call leaves its old phase and enters the new one; only its own id's holders can change. -/
theorem holders_setPhase {calls : Multiset (Call Id)} {call : Call Id} (phase : Phase)
    (hcall : call ∈ calls) (id : Id) :
    holders (setPhase calls call phase) id +
        (if call.id = id ∧ call.phase = .holding then 1 else 0) =
      holders calls id + (if call.id = id ∧ phase = .holding then 1 else 0) := by
  simp only [holders, setPhase]
  conv_rhs => rw [← Multiset.cons_erase hcall]
  simp only [Multiset.countP_cons]
  omega

theorem outstanding_erase {calls : Multiset (Call Id)} {call : Call Id} (hcall : call ∈ calls)
    (id : Id) :
    outstanding (calls.erase call) id + (if call.id = id then 1 else 0) = outstanding calls id := by
  simp only [outstanding]
  conv_rhs => rw [← Multiset.cons_erase hcall]
  rw [Multiset.countP_cons]

theorem holders_erase {calls : Multiset (Call Id)} {call : Call Id} (hcall : call ∈ calls)
    (hphase : call.phase ≠ .holding) (id : Id) :
    holders (calls.erase call) id = holders calls id := by
  simp only [holders]
  conv_rhs => rw [← Multiset.cons_erase hcall]
  rw [Multiset.countP_cons, if_neg (fun h ↦ hphase h.2), Nat.add_zero]

/-! ## Each event keeps the invariant -/

/-- What entering `phase` from `old` adds to the granted weight. -/
def grantDelta (old phase : Phase) : Int :=
  (if phase = .holding then 1 else 0) - (if old = .holding then 1 else 0)

theorem inv_setPhase {maxConn : Int} {s : System Id} (h : Inv maxConn s) {call : Call Id}
    (hcall : call ∈ s.calls) (phase : Phase)
    (hroom : phase = .holding → (holders s.calls call.id : Int) + 1 ≤ max maxConn 0) :
    Inv maxConn ⟨s.blocker.addGranted call.ref (grantDelta call.phase phase),
      setPhase s.calls call phase⟩ where
  limit := h.limit
  owned c hc := by
    obtain ⟨d, hd, hid, href⟩ := mem_setPhase hcall hc
    have howned := h.owned d hd
    rw [hid, href] at howned
    exact howned
  entry id r hr := by
    have he := h.entry id r hr
    have hholders := holders_setPhase phase hcall id
    have hout := outstanding_setPhase phase hcall id
    by_cases hid : call.id = id
    · -- The entry of the call's own id: its semaphore is the one whose weight changed.
      have href : r = call.ref := by
        have howned := h.owned call hcall
        rw [hid] at howned
        exact Option.some.inj (hr.symm.trans howned)
      subst href
      simp only [hid, true_and] at hholders
      refine ⟨?_, hout ▸ he.live, ?_, ?_, ?_, he.alloc⟩
      · rw [hout]
        simpa [Blocker.addGranted] using he.usage
      · simpa [Blocker.addGranted] using he.size
      · simp only [Blocker.addGranted, Function.update_self, he.cur, grantDelta]
        split_ifs at hholders ⊢ <;> omega
      · have hold := he.room
        by_cases hp : phase = .holding
        · have hnew := hroom hp
          rw [hid] at hnew
          simp only [hp, if_true] at hholders ⊢
          omega
        · simp only [hp, if_false] at hholders ⊢
          omega
    · have hne : r ≠ call.ref := by
        rintro rfl
        exact hid (h.inj _ _ _ (h.owned call hcall) hr)
      simp only [hid, false_and, if_false, Nat.add_zero] at hholders
      exact he.congr (Function.update_of_ne hne ..) hout hholders le_rfl
  inj := h.inj

/-- The first caller of an id makes its consumer at a fresh address. -/
theorem inv_take_new {maxConn : Int} {s : System Id} (h : Inv maxConn s) {id : Id}
    (hid : s.blocker.consumers id = none) :
    Inv maxConn ⟨(s.blocker.take id).2, ⟨id, (s.blocker.take id).1, .waiting⟩ ::ₘ s.calls⟩ := by
  have hnone := outstanding_eq_zero h hid
  have hnoHolder := holders_le_outstanding s.calls id
  have hfresh : ∀ id' r, s.blocker.consumers id' = some r → r ≠ s.blocker.fresh :=
    fun id' r hr ↦ Nat.ne_of_lt (h.entry id' r hr).alloc
  simp only [Blocker.take, hid]
  constructor
  · exact h.limit
  · intro c hc
    rcases Multiset.mem_cons.mp hc with rfl | hc
    · exact Function.update_self ..
    · have hne : c.id ≠ id := by
        intro heq
        have howned := h.owned c hc
        rw [heq, hid] at howned
        cases howned
      simpa [hne] using h.owned c hc
  · intro id' r hr
    by_cases heq : id' = id
    · subst heq
      simp only [Function.update_self, Option.some.injEq] at hr
      subst hr
      have hout : outstanding (⟨id', s.blocker.fresh, .waiting⟩ ::ₘ s.calls) id' = 1 := by
        rw [outstanding_cons, if_pos rfl, hnone]
      have hhold : holders (⟨id', s.blocker.fresh, .waiting⟩ ::ₘ s.calls) id' = 0 := by
        rw [holders_cons_waiting]
        omega
      constructor <;> simp [hout, hhold, h.limit]
    · replace hr : s.blocker.consumers id' = some r := by simpa [heq] using hr
      refine (h.entry id' r hr).congr (Function.update_of_ne (hfresh id' r hr) ..) ?_
        (holders_cons_waiting ..) (Nat.le_succ _)
      rw [outstanding_cons, if_neg (Ne.symm heq), Nat.add_zero]
  · intro id₁ id₂ r h₁ h₂
    by_cases heq₁ : id₁ = id <;> by_cases heq₂ : id₂ = id
    · rw [heq₁, heq₂]
    · simp only [heq₁, Function.update_self, Option.some.injEq] at h₁
      exact absurd h₁.symm (hfresh id₂ r (by simpa [heq₂] using h₂))
    · simp only [heq₂, Function.update_self, Option.some.injEq] at h₂
      exact absurd h₂.symm (hfresh id₁ r (by simpa [heq₁] using h₁))
    · exact h.inj id₁ id₂ r (by simpa [heq₁] using h₁) (by simpa [heq₂] using h₂)

/-- A later caller of an id raises the usage of the consumer that is there. -/
theorem inv_take_known {maxConn : Int} {s : System Id} (h : Inv maxConn s) {id : Id} {c : Ref}
    (hid : s.blocker.consumers id = some c) :
    Inv maxConn ⟨(s.blocker.take id).2, ⟨id, (s.blocker.take id).1, .waiting⟩ ::ₘ s.calls⟩ := by
  simp only [Blocker.take, hid]
  constructor
  · exact h.limit
  · intro d hd
    rcases Multiset.mem_cons.mp hd with rfl | hd
    · exact hid
    · exact h.owned d hd
  · intro id' r hr
    have he := h.entry id' r hr
    have hhold := holders_cons_waiting s.calls id id' c
    have hout := outstanding_cons ⟨id, c, .waiting⟩ s.calls id'
    by_cases heq : id = id'
    · have href : r = c := Option.some.inj (hr.symm.trans (heq ▸ hid))
      subst href
      rw [if_pos heq] at hout
      constructor
      · simpa [hout] using he.usage
      · simp [hout]
      · simpa using he.size
      · simpa [hhold] using he.cur
      · simpa [hhold] using he.room
      · exact he.alloc
    · have hne : r ≠ c := by
        rintro rfl
        exact heq (h.inj _ _ _ hid hr)
      rw [if_neg heq, Nat.add_zero] at hout
      exact he.congr (Function.update_of_ne hne ..) hout hhold le_rfl
  · exact h.inj

section Put

variable {maxConn : Int} {s : System Id} {call : Call Id}

/-- The consumers of different ids are different. -/
theorem Inv.ref_ne (h : Inv maxConn s) (hcall : call ∈ s.calls) {id : Id} {r : Ref}
    (hne : id ≠ call.id) (hr : s.blocker.consumers id = some r) : r ≠ call.ref := by
  rintro rfl
  exact hne (h.inj _ _ _ hr (h.owned call hcall))

/-- The last call for the id leaves, and its consumer is dropped. -/
theorem inv_put_last (h : Inv maxConn s) (hcall : call ∈ s.calls) (hphase : call.phase ≠ .holding)
    (hlast : outstanding (s.calls.erase call) call.id = 0) (c : Consumer) :
    Inv maxConn ⟨{ s.blocker with
      consumers := Function.update s.blocker.consumers call.id none
      heap := Function.update s.blocker.heap call.ref c }, s.calls.erase call⟩ where
  limit := h.limit
  owned d hd := by
    have hne : d.id ≠ call.id := by
      intro heq
      rw [outstanding, Multiset.countP_eq_zero] at hlast
      exact hlast d hd heq
    simpa [hne] using h.owned d (Multiset.mem_of_mem_erase hd)
  entry id r hr := by
    by_cases heq : id = call.id
    · simp [heq] at hr
    · replace hr : s.blocker.consumers id = some r := by simpa [heq] using hr
      have hout := outstanding_erase hcall id
      rw [if_neg (Ne.symm heq), Nat.add_zero] at hout
      exact (h.entry id r hr).congr (Function.update_of_ne (h.ref_ne hcall heq hr) ..) hout
        (holders_erase hcall hphase id) le_rfl
  inj id₁ id₂ r h₁ h₂ := by
    by_cases heq₁ : id₁ = call.id
    · simp [heq₁] at h₁
    · by_cases heq₂ : id₂ = call.id
      · simp [heq₂] at h₂
      · exact h.inj id₁ id₂ r (by simpa [heq₁] using h₁) (by simpa [heq₂] using h₂)

/-- Other calls for the id remain, and the entry with them. -/
theorem inv_put_more (h : Inv maxConn s) (hcall : call ∈ s.calls) (hphase : call.phase ≠ .holding)
    (hmore : (s.blocker.heap call.ref).usage - 1 ≠ 0) :
    Inv maxConn ⟨{ s.blocker with
      heap := Function.update s.blocker.heap call.ref
        { s.blocker.heap call.ref with usage := (s.blocker.heap call.ref).usage - 1 } },
      s.calls.erase call⟩ where
  limit := h.limit
  owned d hd := h.owned d (Multiset.mem_of_mem_erase hd)
  entry id r hr := by
    have he := h.entry id r hr
    have hout := outstanding_erase hcall id
    have hhold := holders_erase hcall hphase id
    by_cases heq : id = call.id
    · subst heq
      have href : r = call.ref := Option.some.inj (hr.symm.trans (h.owned call hcall))
      subst href
      have husage := he.usage
      rw [if_pos rfl] at hout
      constructor
      case usage =>
        simp only [Function.update_self]
        omega
      case live =>
        simp only
        omega
      case size => simpa using he.size
      case cur => simpa [hhold] using he.cur
      case room => simpa [hhold] using he.room
      case alloc => exact he.alloc
    · rw [if_neg (Ne.symm heq), Nat.add_zero] at hout
      exact he.congr (Function.update_of_ne (h.ref_ne hcall heq hr) ..) hout hhold le_rfl
  inj := h.inj

/-- A caller that no longer holds the semaphore leaves: `put` finds its consumer and drops it
exactly when this was the last call for the id. -/
theorem inv_put (h : Inv maxConn s) (hcall : call ∈ s.calls) (hphase : call.phase ≠ .holding) :
    Inv maxConn ⟨(s.blocker.put call.id).2, s.calls.erase call⟩ := by
  have hid := h.owned call hcall
  have husage := (h.entry _ _ hid).usage
  have hout := outstanding_erase hcall call.id
  rw [if_pos rfl] at hout
  simp only [Blocker.put, hid]
  split
  next hzero => exact inv_put_last h hcall hphase (by omega) _
  next hmore => exact inv_put_more h hcall hphase hmore

end Put

theorem inv_step {maxConn : Int} (s : System Id) (e : Event Id) (t : System Id)
    (h : Inv maxConn s) (hstep : step s e = some t) : Inv maxConn t := by
  cases e with
  | take id =>
      simp only [step, Option.some.injEq] at hstep
      subst hstep
      cases hid : s.blocker.consumers id with
      | none => exact inv_take_new h hid
      | some c => exact inv_take_known h hid
  | grant call =>
      simp only [step, Option.ite_none_right_eq_some, Option.some.injEq] at hstep
      obtain ⟨⟨hcall, hphase, hgrant⟩, rfl⟩ := hstep
      -- The semaphore grants only within its size, which is `maxConn`.
      have hnew := inv_setPhase h hcall .holding (fun _ ↦ by
        have he := h.entry _ _ (h.owned call hcall)
        have hcur := he.cur
        have hsize := he.size
        simp only [Blocker.canGrant, decide_eq_true_eq] at hgrant
        omega)
      simpa [grantDelta, hphase] using hnew
  | fail call =>
      simp only [step, Option.ite_none_right_eq_some, Option.some.injEq] at hstep
      obtain ⟨⟨hcall, hphase⟩, rfl⟩ := hstep
      have hnew := inv_setPhase h hcall .failing (by simp)
      simpa [grantDelta, hphase, Blocker.addGranted] using hnew
  | release call =>
      simp only [step, Option.ite_none_right_eq_some, Option.some.injEq] at hstep
      obtain ⟨⟨hcall, hphase⟩, rfl⟩ := hstep
      have hnew := inv_setPhase h hcall .releasing (by simp)
      simpa [grantDelta, hphase] using hnew
  | put call =>
      simp only [step, Option.ite_none_right_eq_some, Option.some.injEq] at hstep
      obtain ⟨⟨hcall, hphase⟩, rfl⟩ := hstep
      exact inv_put h hcall (by rcases hphase with hp | hp <;> simp [hp])

/-- In every state that any interleaving reaches, and for every id: at most `maxConn` calls hold
the id (none, if `maxConn` is negative), they hold one and the same semaphore, the map has an entry
exactly while a call for the id is outstanding, and the `put` of any of these calls finds it. -/
theorem blocker_reachable (maxConn : Int) (s : System Id)
    (h : Reachable step (System.init maxConn) s) (id : Id) :
    (holders s.calls id : Int) ≤ max maxConn 0 ∧
    (∀ c ∈ s.calls, ∀ d ∈ s.calls, c.id = id → d.id = id → c.ref = d.ref) ∧
    ((s.blocker.consumers id).isSome ↔ ∃ c ∈ s.calls, c.id = id) ∧
    (∀ c ∈ s.calls, c.id = id → (s.blocker.put id).1 = true) := by
  have hInv : Inv maxConn s := h.invariant inv_step (inv_init maxConn)
  have howned : ∀ c ∈ s.calls, c.id = id → s.blocker.consumers id = some c.ref :=
    fun c hc hid ↦ hid ▸ hInv.owned c hc
  refine ⟨?_, ?_, ?_, ?_⟩
  · cases hid : s.blocker.consumers id with
    | some r => exact (hInv.entry id r hid).room
    | none =>
        have hzero := outstanding_eq_zero hInv hid
        have hle := holders_le_outstanding s.calls id
        omega
  · intro c hc d hd hcid hdid
    exact Option.some.inj ((howned c hc hcid).symm.trans (howned d hd hdid))
  · rw [Option.isSome_iff_exists]
    constructor
    · rintro ⟨r, hr⟩
      exact Multiset.countP_pos.mp (hInv.entry id r hr).live
    · rintro ⟨c, hc, hid⟩
      exact ⟨c.ref, howned c hc hid⟩
  · intro c hc hid
    simp only [Blocker.put, howned c hc hid]
    split <;> rfl

/-- Two callers of one id with a limit of one: the second waits while the first holds. -/
theorem blocker_reachable_oneHolder :
    ∃ s : System String,
      runSteps step [.take "peer", .take "peer", .grant ⟨"peer", 0, .waiting⟩] (System.init 1) =
        some s ∧ holders s.calls "peer" = 1 ∧ (holders s.calls "peer" : Int) ≤ max 1 0 :=
  ⟨_, rfl, rfl, (blocker_reachable 1 _ ⟨[.take "peer", .take "peer", .grant ⟨"peer", 0, .waiting⟩],
    rfl⟩ "peer").1⟩

end CommonLib.XLimits
