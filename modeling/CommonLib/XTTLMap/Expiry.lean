import CommonLib.XTTLMap.Contents

/-!
# What expiry removes

`Get` and the cleanup look for expired entries in one locked section and remove them in a later one.
What they go by when they remove is the entry that is there then, so that one that was set again in
between stays.
-/

namespace CommonLib.XTTLMap

open CommonLib.Reasoning

variable {K V : Type} [DecidableEq K]

theorem Item.expired_iff (item : Item V) (now : Time) :
    item.expired now = true ↔ item.deadline ≠ 0 ∧ item.deadline < now := by
  rw [Item.expired]
  split
  next hzero => exact iff_of_false Bool.false_ne_true fun h ↦ h.1 hzero
  next hne => rw [decide_eq_true_iff, and_iff_right hne]

namespace TTLMap

/-- `m'` holds what `m` held, except for items past their deadline at `now`. -/
structure Expires (now : Time) (m m' : TTLMap K V) : Prop where
  keyed : Keyed m'
  peek : ∀ k, m'.peek k = m.peek k ∨ m'.peek k = none ∧
    ∃ item, m.peek k = some item ∧ item.deadline ≠ 0 ∧ item.deadline < now

variable {m m' : TTLMap K V}

theorem Expires.refl (h : Keyed m) (now : Time) : Expires now m m := ⟨h, fun _ ↦ .inl rfl⟩

theorem Expires.trans {m'' : TTLMap K V} {now : Time} (h : Expires now m m')
    (h' : Expires now m' m'') : Expires now m m'' := by
  refine ⟨h'.keyed, fun k ↦ ?_⟩
  obtain hsame' | ⟨hnone', item, hitem, hpast⟩ := h'.peek k
  · rw [hsame']
    exact h.peek k
  · obtain hsame | ⟨hnone, -⟩ := h.peek k
    · exact .inr ⟨hnone', item, hsame ▸ hitem, hpast⟩
    · cases hnone.symm.trans hitem

/-- Nothing but the key that a node was found under goes with the node. -/
theorem peek_detach_of_ne (h : Keyed m) {key k : K} {p : Ptr} (hp : m.items.lookup key = some p)
    (hk : k ≠ key) : (m.detach p).peek k = m.peek k := by
  rw [detach, (removeNode_same _ p).peek, h.key key p hp, peek, peek, AList.lookup_erase_ne hk]

/-- The check is made again, on the item that is there. -/
theorem dropExpired_expires (h : Keyed m) (key : K) (now : Time) :
    Expires now m (m.dropExpired key now) := by
  refine ⟨(dropExpired_loses h key now).keyed, fun k ↦ ?_⟩
  rw [dropExpired]
  split
  next node hnode =>
    split
    next hexpired =>
      by_cases hk : k = key
      · subst hk
        refine .inr ⟨peek_detach h hnode, (m.heap node).item, ?_, (Item.expired_iff ..).mp hexpired⟩
        rw [TTLMap.peek, hnode]
        rfl
      · exact .inl (peek_detach_of_ne h hnode hk)
    next => exact .inl rfl
  next => exact .inl rfl

theorem foldl_dropExpired_expires (h : Keyed m) (keys : List K) (now : Time) :
    Expires now m (keys.foldl (·.dropExpired · now) m) := by
  induction keys generalizing m with
  | nil => exact .refl h now
  | cons key keys ih =>
      have hdrop := dropExpired_expires h key now
      exact hdrop.trans (ih hdrop.keyed)

end TTLMap

open TTLMap

/-! ## Steps -/

/-- The time that a removal goes by: that of the test of `Get`, or of the scan. -/
def Event.sampled : Event K V → Option Time
  | .getDrop _ now | .cleanupRemove now _ => some now
  | _ => none

/-- The calls that store and evict. -/
def Event.writes : Event K V → Bool
  | .set .. | .delete .. | .resize .. => true
  | _ => false

variable {s t : System K V} {e : Event K V}

theorem step_expires {now : Time} (h : s.map.Keyed) (hnow : e.sampled = some now)
    (hstep : step s e = some t) : Expires now s.map t.map := by
  cases step_taken hstep with
  | @getDrop key =>
      cases hnow
      exact dropExpired_expires h key now
  | @cleanupRemove _ keys =>
      cases hnow
      exact foldl_dropExpired_expires h keys now
  | _ => cases hnow

/-- The other sections of `Get` and of the cleanup. -/
theorem step_same (hnow : e.sampled = none) (hwrites : e.writes = false)
    (hstep : step s e = some t) : SameEntries s.map t.map := by
  cases step_taken hstep with
  | getFind | getCheck | cleanupCall | cleanupScan => exact .refl _
  | @getTouch node => exact moveToFront_same s.map node
  | cleanupDone => exact ⟨fun _ ↦ rfl, fun _ ↦ rfl, rfl, rfl, rfl⟩
  | getDrop | cleanupRemove => cases hnow
  | set | delete | resize => cases hwrites

theorem step_keyed (h : s.map.Keyed) (hstep : step s e = some t) : t.map.Keyed := by
  cases hnow : e.sampled with
  | some now => exact (step_expires h hnow hstep).keyed
  | none =>
      cases hwrites : e.writes with
      | false => exact (step_same hnow hwrites hstep).keyed h
      | true =>
          cases step_taken hstep with
          | set hset => exact (set_puts h hset).keyed
          | delete => exact (delete_loses h ..).1.keyed
          | resize hresize => exact (resize_loses h hresize).keyed
          | _ => cases hwrites

/-! ## Runs -/

/-- If the step is a call that stores or evicts, it leaves the entry of `key` alone. -/
def Event.Leaves (key : K) (s : System K V) (e : Event K V) : Prop :=
  e.writes = true → ∀ t, step s e = some t → t.map.peek key = s.map.peek key

/-- A removal that goes by a time at which the item is not past its deadline leaves it. -/
theorem step_leaves {key : K} {item : Item V} (h : s.map.Keyed)
    (hitem : s.map.peek key = some item) (hleaves : e.Leaves key s)
    (hvalid : ∀ now, e.sampled = some now → item.deadline = 0 ∨ now ≤ item.deadline)
    (hstep : step s e = some t) : t.map.peek key = some item := by
  cases hnow : e.sampled with
  | some now =>
      obtain hsame | ⟨-, item', hitem', hne, hlt⟩ := (step_expires h hnow hstep).peek key
      · exact hsame.trans hitem
      · cases hitem.symm.trans hitem'
        exact absurd hlt (not_lt.mpr ((hvalid now hnow).resolve_left hne))
  | none =>
      cases hwrites : e.writes with
      | true => exact (hleaves hwrites t hstep).trans hitem
      | false => exact ((step_same hnow hwrites hstep).peek key).trans hitem

theorem run_leaves {key : K} {item : Item V} {later : List (Event K V)} (h : s.map.Keyed)
    (hitem : s.map.peek key = some item) (hleaves : EveryStep step (Event.Leaves key) later s)
    (hvalid : ∀ e ∈ later, ∀ now, e.sampled = some now → item.deadline = 0 ∨ now ≤ item.deadline)
    (hrun : runSteps step later s = some t) : t.map.peek key = some item := by
  have hinv := (hleaves.and_mem hvalid).everyState
    (P := fun s ↦ s.map.Keyed ∧ s.map.peek key = some item)
    (fun s e t hs hok hstep ↦ ⟨step_keyed hs.1 hstep, step_leaves hs.1 hs.2 hok.2 hok.1 hstep⟩)
    ⟨h, hitem⟩
  exact (hinv.last hrun).2

/-- From every state that calls of `Set`, `Get`, `Delete`, `Resize` and cleanups lead to: a section
of `Get` or of a cleanup removes an entry only if its deadline is set and past at the time it has
sampled; and an entry that is set stays, with that value and deadline, through all sections that
have sampled no later time than its deadline. -/
theorem expiry_spares_refreshed [Inhabited K] [Inhabited V] (maxSize : Int) (start : Time)
    (earlier : List (Event K V)) (s : System K V)
    (hrun : runSteps step earlier (System.init maxSize start) = some s) :
    (∀ e t, step s e = some t → e.writes = false → ∀ k, t.map.peek k = s.map.peek k ∨
      t.map.peek k = none ∧ ∃ now item, e.sampled = some now ∧ s.map.peek k = some item ∧
        item.deadline ≠ 0 ∧ item.deadline < now) ∧
    ∀ key value deadline since now fuel t later u,
      step s (.set key value deadline since now fuel) = some t →
      runSteps step later t = some u → EveryStep step (Event.Leaves key) later t →
      (∀ e ∈ later, ∀ now, e.sampled = some now → deadline = 0 ∨ now ≤ deadline) →
      u.map.peek key = some ⟨value, deadline⟩ := by
  have hstep : ∀ (s : System K V) e t, s.map.Keyed → step s e = some t → t.map.Keyed :=
    fun _ _ _ ↦ step_keyed
  have hkeyed : s.map.Keyed :=
    runSteps_invariant hstep earlier (new_keyed maxSize start) hrun
  refine ⟨fun e t hstep hwrites k ↦ ?_, ?_⟩
  · cases hnow : e.sampled with
    | none => exact .inl ((step_same hnow hwrites hstep).peek k)
    | some now =>
        refine ((step_expires hkeyed hnow hstep).peek k).imp id fun ⟨hnone, item, hpast⟩ ↦ ?_
        exact ⟨hnone, now, item, rfl, hpast⟩
  · intro key value deadline since now fuel t later u hset hlater hleaves hvalid
    have hkeyed' := step_keyed hkeyed hset
    obtain ⟨⟨m, spawn⟩, hm, hret⟩ := Option.bind_eq_some_iff.mp hset
    cases hret
    exact run_leaves hkeyed' (set_puts hkeyed hm).stored hleaves hvalid hlater

/-- A cleanup has scanned at time 10 and found key 1 expired; then the key is set again. -/
theorem expiry_spares_refreshed_scan :
    ∃ s t u, runSteps (step (K := Nat) (V := Nat))
        [.set 1 7 5 0 0 5, .cleanupCall, .cleanupScan 10 [1]] (System.init 2 0) = some s ∧
      step s (.set 1 8 20 0 0 5) = some t ∧
      runSteps step [.cleanupRemove 10 [1], .cleanupDone] t = some u ∧
      u.map.peek 1 = some ⟨8, 20⟩ := by
  refine ⟨_, _, _, rfl, rfl, rfl, ?_⟩
  refine (expiry_spares_refreshed 2 0 [.set 1 7 5 0 0 5, .cleanupCall, .cleanupScan 10 [1]] _
    rfl).2 1 8 20 0 0 5 _ [.cleanupRemove 10 [1], .cleanupDone] _ rfl rfl ?_ ?_
  · exact .cons rfl nofun (.cons rfl nofun trivial)
  · intro e he now hnow
    fin_cases he <;> cases hnow
    exact .inr (by decide)

end CommonLib.XTTLMap
