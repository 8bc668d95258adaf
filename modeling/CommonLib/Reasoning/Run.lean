import CommonLib.Reasoning.Crash

/-!
# Runs

Two kinds of run: of operations that return a reply and a new state or crash, and of a labelled
step relation, for systems whose parties take their steps in any order.
-/

namespace CommonLib.Reasoning

/-! ## Operations one after another -/

section Operations

variable {ι ρ σ ε : Type*} {exec : ι → σ → Except ε (ρ × σ)}

def runAll (exec : ι → σ → Except ε (ρ × σ)) : List ι → σ → Except ε (List ρ × σ)
  | [], s => .ok ([], s)
  | op :: ops, s => do
      let (r, t) ← exec op s
      let (rs, u) ← runAll exec ops t
      return (r :: rs, u)

theorem runAll_cons_eq_ok_iff {op : ι} {ops : List ι} {s u : σ} {rs : List ρ} :
    runAll exec (op :: ops) s = .ok (rs, u) ↔
      ∃ r t rs', exec op s = .ok (r, t) ∧ runAll exec ops t = .ok (rs', u) ∧ r :: rs' = rs := by
  rw [runAll]
  rcases hop : exec op s with err | ⟨r, t⟩
  · simp [bind, Except.bind]
  · rcases hops : runAll exec ops t with err | ⟨rs', u'⟩
    · simp [bind, Except.bind, hops]
    · simp [bind, Except.bind, pure, Except.pure, hops, and_comm]

/-- If every operation with `P` returns and keeps `Inv`, then so does every sequence of them. -/
theorem runAll_invariant {Inv : σ → Prop} {P : ι → Prop}
    (hstep : ∀ op s, P op → Inv s → ∃ r t, exec op s = .ok (r, t) ∧ Inv t)
    (ops : List ι) (s : σ) (hP : ∀ op ∈ ops, P op) (hs : Inv s) :
    ∃ rs t, runAll exec ops s = .ok (rs, t) ∧ Inv t := by
  induction ops generalizing s with
  | nil => exact ⟨[], s, rfl, hs⟩
  | cons op ops ih =>
      obtain ⟨r, t, ht, hInv⟩ := hstep op s (hP op List.mem_cons_self) hs
      obtain ⟨rs, u, hu, hInv'⟩ :=
        ih t (fun o ho ↦ hP o (List.mem_cons_of_mem op ho)) hInv
      exact ⟨r :: rs, u, runAll_cons_eq_ok_iff.mpr ⟨r, t, rs, ht, hu, rfl⟩, hInv'⟩

/-- The same for two runs of the same operations, and a relation between their states. -/
theorem runAll_lockstep {R : σ → σ → Prop} {P : ι → Prop}
    (hstep : ∀ op s s', P op → R s s' →
      ∃ r t r' t', exec op s = .ok (r, t) ∧ exec op s' = .ok (r', t') ∧ R t t')
    (ops : List ι) (s s' : σ) (hP : ∀ op ∈ ops, P op) (hs : R s s') :
    ∃ rs t rs' t', runAll exec ops s = .ok (rs, t) ∧ runAll exec ops s' = .ok (rs', t') ∧
      R t t' := by
  induction ops generalizing s s' with
  | nil => exact ⟨[], s, [], s', rfl, rfl, hs⟩
  | cons op ops ih =>
      obtain ⟨r, t, r', t', ht, ht', hR⟩ := hstep op s s' (hP op List.mem_cons_self) hs
      obtain ⟨rs, u, rs', u', hu, hu', hR'⟩ :=
        ih t t' (fun o ho ↦ hP o (List.mem_cons_of_mem op ho)) hR
      exact ⟨r :: rs, u, r' :: rs', u', runAll_cons_eq_ok_iff.mpr ⟨r, t, rs, ht, hu, rfl⟩,
        runAll_cons_eq_ok_iff.mpr ⟨r', t', rs', ht', hu', rfl⟩, hR'⟩

theorem runAll_append {ops ops' : List ι} {s t u : σ} {rs rs' : List ρ}
    (h : runAll exec ops s = .ok (rs, t)) (h' : runAll exec ops' t = .ok (rs', u)) :
    runAll exec (ops ++ ops') s = .ok (rs ++ rs', u) := by
  induction ops generalizing s rs with
  | nil =>
      cases h
      exact h'
  | cons op ops ih =>
      obtain ⟨r, t', rs₁, hop, hrest, rfl⟩ := runAll_cons_eq_ok_iff.mp h
      exact runAll_cons_eq_ok_iff.mpr ⟨r, t', _, hop, ih hrest, rfl⟩

theorem runAll_concat {op : ι} {ops : List ι} {s u : σ} {rs : List ρ}
    (h : runAll exec (ops ++ [op]) s = .ok (rs, u)) :
    ∃ rs' t r, runAll exec ops s = .ok (rs', t) ∧ exec op t = .ok (r, u) := by
  induction ops generalizing s rs with
  | nil =>
      obtain ⟨r, t, rs', hop, hrest, -⟩ := runAll_cons_eq_ok_iff.mp h
      cases hrest
      exact ⟨[], s, r, rfl, hop⟩
  | cons op' ops ih =>
      obtain ⟨r', t', rs₁, hop', hrest, -⟩ := runAll_cons_eq_ok_iff.mp h
      obtain ⟨rs', t, r, hrun, hop⟩ := ih hrest
      exact ⟨r' :: rs', t, r, runAll_cons_eq_ok_iff.mpr ⟨r', t', rs', hop', hrun, rfl⟩, hop⟩

/-- A relation between what has been done so far and the state that each operation keeps holds after
every run that returns. -/
theorem runAll_history {R : List ι → σ → Prop} {init : σ} (hinit : R [] init)
    (hstep : ∀ ops s op r t rs, runAll exec ops init = .ok (rs, s) → R ops s →
      exec op s = .ok (r, t) → R (ops ++ [op]) t)
    {ops : List ι} {s : σ} {rs : List ρ} (hrun : runAll exec ops init = .ok (rs, s)) : R ops s := by
  induction ops using List.reverseRecOn generalizing s rs with
  | nil =>
      cases hrun
      exact hinit
  | append_singleton ops op ih =>
      obtain ⟨rs', t, r, hops, hop⟩ := runAll_concat hrun
      exact hstep ops t op r s rs' hops (ih hops) hop

/-- The run of a reference, which answers every operation. -/
def runTotal {τ : Type*} (ref : ι → τ → ρ × τ) : List ι → τ → List ρ × τ
  | [], t => ([], t)
  | op :: ops, t =>
      let (rs, u) := runTotal ref ops (ref op t).2
      ((ref op t).1 :: rs, u)

/-- If each operation that returns answers as the reference does and keeps the relation to it, then
so does every run that returns. -/
theorem runAll_refines {τ : Type*} {ref : ι → τ → ρ × τ} {R : σ → τ → Prop}
    (hstep : ∀ op s t r u, R s t → exec op s = .ok (r, u) → r = (ref op t).1 ∧ R u (ref op t).2)
    {ops : List ι} {s u : σ} {t : τ} {rs : List ρ} (hs : R s t)
    (hrun : runAll exec ops s = .ok (rs, u)) :
    rs = (runTotal ref ops t).1 ∧ R u (runTotal ref ops t).2 := by
  induction ops generalizing s t rs with
  | nil =>
      cases hrun
      exact ⟨rfl, hs⟩
  | cons op ops ih =>
      obtain ⟨r, s', rs', hop, hrest, rfl⟩ := runAll_cons_eq_ok_iff.mp hrun
      obtain ⟨rfl, hs'⟩ := hstep op s t r s' hs hop
      obtain ⟨rfl, hu⟩ := ih hs' hrest
      exact ⟨rfl, hu⟩

/-- The same for operations that always return, where the replies need only correspond. -/
theorem runTotal_simulates {τ ω : Type*} {exec : ι → σ → ρ × σ} {ref : ι → τ → ω × τ}
    {R : σ → τ → Prop} {M : ρ → ω → Prop}
    (hstep : ∀ op s t, R s t → M (exec op s).1 (ref op t).1 ∧ R (exec op s).2 (ref op t).2)
    (ops : List ι) {s : σ} {t : τ} (hs : R s t) :
    List.Forall₂ M (runTotal exec ops s).1 (runTotal ref ops t).1 ∧
      R (runTotal exec ops s).2 (runTotal ref ops t).2 := by
  induction ops generalizing s t with
  | nil => exact ⟨.nil, hs⟩
  | cons op ops ih =>
      obtain ⟨hreply, hnext⟩ := hstep op s t hs
      obtain ⟨hreplies, hend⟩ := ih hnext
      exact ⟨.cons hreply hreplies, hend⟩

end Operations

/-! ## Steps of a system -/

section Steps

variable {σ α : Type*} {step : σ → α → Option σ}

/-- The states a system passes through when it takes the given steps; a step that is not enabled
gives no state. -/
def runSteps (step : σ → α → Option σ) : List α → σ → Option σ
  | [], s => some s
  | a :: as, s => (step s a).bind (runSteps step as)

theorem runSteps_append (as bs : List α) (s : σ) :
    runSteps step (as ++ bs) s = (runSteps step as s).bind (runSteps step bs) := by
  induction as generalizing s with
  | nil => rfl
  | cons a as ih =>
      rw [List.cons_append, runSteps, runSteps, Option.bind_assoc]
      exact congrArg _ (funext ih)

theorem runSteps_concat (as : List α) (a : α) (s : σ) :
    runSteps step (as ++ [a]) s = (runSteps step as s).bind fun t ↦ step t a := by
  rw [runSteps_append]
  exact congrArg _ (funext fun t ↦ Option.bind_fun_some (step t a))

/-- `s` is reached from `init` by some sequence of steps. -/
def Reachable (step : σ → α → Option σ) (init s : σ) : Prop :=
  ∃ as, runSteps step as init = some s

theorem runSteps_invariant {Inv : σ → Prop}
    (hstep : ∀ s a t, Inv s → step s a = some t → Inv t) (as : List α) {s t : σ}
    (hs : Inv s) (hrun : runSteps step as s = some t) : Inv t := by
  induction as generalizing s with
  | nil =>
      rw [runSteps, Option.some.injEq] at hrun
      exact hrun ▸ hs
  | cons a as ih =>
      rw [runSteps, Option.bind_eq_some_iff] at hrun
      obtain ⟨u, hu, hrest⟩ := hrun
      exact ih (hstep s a u hs hu) hrest

theorem Reachable.invariant {Inv : σ → Prop} {init s : σ}
    (hstep : ∀ s a t, Inv s → step s a = some t → Inv t) (hinit : Inv init)
    (h : Reachable step init s) : Inv s :=
  h.elim fun as hrun ↦ runSteps_invariant hstep as hinit hrun

/-- Every state the run passes through, from the first on, has `P`. -/
def EveryState (step : σ → α → Option σ) (P : σ → Prop) : List α → σ → Prop
  | [], s => P s
  | a :: as, s => P s ∧ ∀ t, step s a = some t → EveryState step P as t

/-- Every step the run takes has `Ok` in the state it is taken in. -/
def EveryStep (step : σ → α → Option σ) (Ok : σ → α → Prop) : List α → σ → Prop
  | [], _ => True
  | a :: as, s => ∀ t, step s a = some t → Ok s a ∧ EveryStep step Ok as t

/-- Every step has `Ok` in the state in which its turn comes, whether it can be taken or not. -/
def EveryTurn (step : σ → α → Option σ) (Ok : σ → α → Prop) : List α → σ → Prop
  | [], _ => True
  | a :: as, s => Ok s a ∧ ∀ t, step s a = some t → EveryTurn step Ok as t

theorem EveryStep.cons {Ok : σ → α → Prop} {a : α} {as : List α} {s t : σ} (ht : step s a = some t)
    (hok : Ok s a) (hrest : EveryStep step Ok as t) : EveryStep step Ok (a :: as) s := by
  intro u hu
  cases ht.symm.trans hu
  exact ⟨hok, hrest⟩

/-- The steps after a part of the run that has been taken. -/
theorem EveryStep.of_append {Ok : σ → α → Prop} {as bs : List α} {s t : σ}
    (h : EveryStep step Ok (as ++ bs) s) (hrun : runSteps step as s = some t) :
    EveryStep step Ok bs t := by
  induction as generalizing s with
  | nil =>
      cases hrun
      exact h
  | cons a as ih =>
      rw [runSteps, Option.bind_eq_some_iff] at hrun
      obtain ⟨u, hu, hrest⟩ := hrun
      exact ih (h u hu).2 hrest

theorem EveryStep.left {Ok : σ → α → Prop} {as bs : List α} {s : σ}
    (h : EveryStep step Ok (as ++ bs) s) : EveryStep step Ok as s := by
  induction as generalizing s with
  | nil => trivial
  | cons a as ih => exact fun t ht ↦ ⟨(h t ht).1, ih (h t ht).2⟩

/-- An invariant of the steps holds in every state of every run. -/
theorem everyState_of_inv {P : σ → Prop} (hstep : ∀ s a t, P s → step s a = some t → P t)
    (as : List α) {s : σ} (hs : P s) : EveryState step P as s := by
  induction as generalizing s with
  | nil => exact hs
  | cons a as ih => exact ⟨hs, fun t ht ↦ ih (hstep s a t hs ht)⟩

theorem EveryState.head {P : σ → Prop} {as : List α} {s : σ} (h : EveryState step P as s) :
    P s := by
  cases as with
  | nil => exact h
  | cons a as => exact h.1

theorem EveryState.last {P : σ → Prop} {as : List α} {s t : σ} (h : EveryState step P as s)
    (hrun : runSteps step as s = some t) : P t := by
  induction as generalizing s with
  | nil =>
      cases hrun
      exact h
  | cons a as ih =>
      rw [runSteps, Option.bind_eq_some_iff] at hrun
      obtain ⟨u, hu, hrest⟩ := hrun
      exact ih (h.2 u hu) hrest

theorem everyStep_of_mem {P : α → Prop} {as : List α} (h : ∀ a ∈ as, P a) (s : σ) :
    EveryStep step (fun _ a ↦ P a) as s := by
  induction as generalizing s with
  | nil => trivial
  | cons a as ih =>
      intro t _
      exact ⟨h a List.mem_cons_self, ih (fun b hb ↦ h b (List.mem_cons_of_mem a hb)) t⟩

theorem EveryStep.and {Ok Ok' : σ → α → Prop} {as : List α} {s : σ} (h : EveryStep step Ok as s)
    (h' : EveryStep step Ok' as s) : EveryStep step (fun s a ↦ Ok s a ∧ Ok' s a) as s := by
  induction as generalizing s with
  | nil => trivial
  | cons a as ih =>
      intro t ht
      obtain ⟨hok, hrest⟩ := h t ht
      obtain ⟨hok', hrest'⟩ := h' t ht
      exact ⟨⟨hok, hok'⟩, ih hrest hrest'⟩

theorem EveryStep.and_mem {Ok : σ → α → Prop} {P : α → Prop} {as : List α} {s : σ}
    (h : EveryStep step Ok as s) (hP : ∀ a ∈ as, P a) :
    EveryStep step (fun s a ↦ P a ∧ Ok s a) as s :=
  (everyStep_of_mem hP s).and h

theorem EveryTurn.and_mem {Ok : σ → α → Prop} {P : α → Prop} {as : List α} {s : σ}
    (h : EveryTurn step Ok as s) (hP : ∀ a ∈ as, P a) :
    EveryTurn step (fun s a ↦ P a ∧ Ok s a) as s := by
  induction as generalizing s with
  | nil => trivial
  | cons a as ih =>
      refine ⟨⟨hP a List.mem_cons_self, h.1⟩, fun t ht ↦ ?_⟩
      exact ih (h.2 t ht) fun b hb ↦ hP b (List.mem_cons_of_mem a hb)

/-- If steps with `Ok` can be taken and keep an invariant, a run of them comes to its end. -/
theorem EveryTurn.run {P : σ → Prop} {Ok : σ → α → Prop}
    (hstep : ∀ s a, P s → Ok s a → ∃ t, step s a = some t ∧ P t) {as : List α} {s : σ}
    (h : EveryTurn step Ok as s) (hs : P s) :
    (∃ t, runSteps step as s = some t) ∧ EveryState step P as s := by
  induction as generalizing s with
  | nil => exact ⟨⟨s, rfl⟩, hs⟩
  | cons a as ih =>
      obtain ⟨t, ht, hPt⟩ := hstep s a hs h.1
      obtain ⟨⟨u, hu⟩, hevery⟩ := ih (h.2 t ht) hPt
      refine ⟨⟨u, ?_⟩, hs, fun t' ht' ↦ ?_⟩
      · rw [runSteps, ht]
        exact hu
      · cases ht.symm.trans ht'
        exact hevery

/-- Where `Ok` says which steps can be taken, a run comes to its end exactly if each step has it. -/
theorem runSteps_iff_everyTurn {P : σ → Prop} {Ok : σ → α → Prop}
    (hok : ∀ s a, P s → ((∃ t, step s a = some t) ↔ Ok s a))
    (hkeep : ∀ s a t, P s → step s a = some t → P t) (as : List α) {s : σ} (hs : P s) :
    (∃ t, runSteps step as s = some t) ↔ EveryTurn step Ok as s := by
  constructor
  · intro h
    induction as generalizing s with
    | nil => trivial
    | cons a as ih =>
        obtain ⟨u, hu⟩ := h
        obtain ⟨t, ht, hrest⟩ := Option.bind_eq_some_iff.mp hu
        refine ⟨(hok s a hs).mp ⟨t, ht⟩, fun t' ht' ↦ ?_⟩
        cases ht.symm.trans ht'
        exact ih (hkeep s a t hs ht) ⟨u, hrest⟩
  · intro h
    refine (h.run (fun s a hs ha ↦ ?_) hs).1
    obtain ⟨t, ht⟩ := (hok s a hs).mpr ha
    exact ⟨t, ht, hkeep s a t hs ht⟩

/-- Under an invariant that the steps with `Ok` keep, what `Ok` implies of a step holds of each. -/
theorem EveryStep.imp_of_inv {P : σ → Prop} {Ok Ok' : σ → α → Prop}
    (hstep : ∀ s a t, P s → Ok s a → step s a = some t → Ok' s a ∧ P t) {as : List α} {s : σ}
    (h : EveryStep step Ok as s) (hs : P s) : EveryStep step Ok' as s := by
  induction as generalizing s with
  | nil => trivial
  | cons a as ih =>
      intro t ht
      obtain ⟨hok, hrest⟩ := h t ht
      obtain ⟨hok', ht'⟩ := hstep s a t hs hok ht
      exact ⟨hok', ih hrest ht'⟩

/-- An invariant that only some steps keep holds in every state of a run of such steps. -/
theorem EveryStep.everyState {P : σ → Prop} {Ok : σ → α → Prop}
    (hstep : ∀ s a t, P s → Ok s a → step s a = some t → P t) {as : List α} {s : σ}
    (h : EveryStep step Ok as s) (hs : P s) : EveryState step P as s := by
  induction as generalizing s with
  | nil => exact hs
  | cons a as ih =>
      refine ⟨hs, fun t ht ↦ ?_⟩
      obtain ⟨hok, hrest⟩ := h t ht
      exact ih hrest (hstep s a t hs hok ht)

theorem EveryState.and {P Q : σ → Prop} {as : List α} {s : σ} (h : EveryState step P as s)
    (h' : EveryState step Q as s) : EveryState step (fun s ↦ P s ∧ Q s) as s := by
  induction as generalizing s with
  | nil => exact ⟨h, h'⟩
  | cons a as ih => exact ⟨⟨h.1, h'.1⟩, fun t ht ↦ ih (h.2 t ht) (h'.2 t ht)⟩

/-- In a run whose steps have `Ok`, a property that a step without `Ok'` destroys forces `Ok'` on every
step of a run that has it throughout. -/
theorem EveryState.everyStep_of_ok {P : σ → Prop} {Ok Ok' : σ → α → Prop}
    (hstep : ∀ s a t, P s → Ok s a → step s a = some t → P t → Ok' s a) {as : List α} {s : σ}
    (h : EveryState step P as s) (hok : EveryStep step Ok as s) : EveryStep step Ok' as s := by
  induction as generalizing s with
  | nil => trivial
  | cons a as ih =>
      intro t ht
      obtain ⟨hoka, hrest⟩ := hok t ht
      exact ⟨hstep s a t h.1 hoka ht (h.2 t ht).head, ih (h.2 t ht) hrest⟩

/-- If the steps with `Ok` keep an invariant and the others destroy what it gives, a run of steps with
`Q` has the property throughout exactly if all its steps have `Ok`. -/
theorem everyState_iff_everyStep {Inv P : σ → Prop} {Ok : σ → α → Prop} {Q : α → Prop}
    (hprop : ∀ s, Inv s → P s)
    (hkeep : ∀ s a t, Inv s → Q a → Ok s a → step s a = some t → Inv t)
    (hbreak : ∀ s a t, Inv s → Q a → step s a = some t → P t → Ok s a) {as : List α} {s : σ}
    (hQ : ∀ a ∈ as, Q a) (hs : Inv s) : EveryState step P as s ↔ EveryStep step Ok as s := by
  induction as generalizing s with
  | nil => exact iff_of_true (hprop s hs) trivial
  | cons a as ih =>
      have hqa := hQ a List.mem_cons_self
      have hrestQ : ∀ b ∈ as, Q b := fun b hb ↦ hQ b (List.mem_cons_of_mem a hb)
      constructor
      · intro h t ht
        have hok := hbreak s a t hs hqa ht (h.2 t ht).head
        exact ⟨hok, (ih hrestQ (hkeep s a t hs hqa hok ht)).mp (h.2 t ht)⟩
      · intro h
        refine ⟨hprop s hs, fun t ht ↦ ?_⟩
        obtain ⟨hok, hrest⟩ := h t ht
        exact (ih hrestQ (hkeep s a t hs hqa hok ht)).mpr hrest

theorem EveryState.imp {P Q : σ → Prop} (hPQ : ∀ s, P s → Q s) {as : List α} {s : σ}
    (h : EveryState step P as s) : EveryState step Q as s := by
  induction as generalizing s with
  | nil => exact hPQ s h
  | cons a as ih => exact ⟨hPQ s h.1, fun t ht ↦ ih (h.2 t ht)⟩

end Steps

end CommonLib.Reasoning
