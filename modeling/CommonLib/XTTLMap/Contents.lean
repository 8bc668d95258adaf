import CommonLib.XTTLMap.Linked

/-!
# What a TTL map holds

The operations seen through the items they store under each key.  The list of nodes plays no part:
whatever it looks like, an eviction takes keys away and changes nothing under the others.
-/

namespace CommonLib.XTTLMap

open CommonLib.Reasoning

variable {K V : Type} [DecidableEq K]

namespace TTLMap

/-- `Get` without interruption; `now` is its clock reading. -/
def get (s : TTLMap K V) (key : K) (now : Time) : TTLMap K V × Option V :=
  match s.items.lookup key with
  | none => (s, none)
  | some node =>
      if (s.heap node).item.expired now then (s.dropExpired key now, none)
      else (s.moveToFront node, some (s.heap node).item.value)

/-- The sections of an uninterrupted `Get`, one after another. -/
theorem get_eq_sections (s : System K V) (key : K) (now : Time) :
    ∃ sections, runSteps step sections s = some ⟨(s.map.get key now).1, s.calls⟩ := by
  cases hfind : s.map.items.lookup key with
  | none =>
      refine ⟨[.getFind key], ?_⟩
      simp only [runSteps, step, get, hfind, Option.bind_some]
  | some node =>
      by_cases hexpired : (s.map.heap node).item.expired now = true
      · refine ⟨[.getFind key, .getCheck key node now, .getDrop key now], ?_⟩
        simp [runSteps, step, get, advance, hfind, hexpired]
      · refine ⟨[.getFind key, .getCheck key node now, .getTouch node], ?_⟩
        simp [runSteps, step, get, advance, hfind, hexpired]

/-- The item under a key, expired or not. -/
def peek (m : TTLMap K V) (k : K) : Option (Item V) :=
  (m.items.lookup k).map fun p ↦ (m.heap p).item

/-- Every key has a node of its own, at an address that is in use. -/
structure Keyed (m : TTLMap K V) : Prop where
  key : ∀ k p, m.items.lookup k = some p → (m.heap p).key = k
  allocated : ∀ k p, m.items.lookup k = some p → p < m.fresh

/-- `m'` holds what `m` held, some keys apart. -/
structure Loses (m m' : TTLMap K V) : Prop where
  keyed : Keyed m'
  peek : ∀ k, m'.peek k = m.peek k ∨ m'.peek k = none

theorem Loses.refl {m : TTLMap K V} (h : Keyed m) : Loses m m := ⟨h, fun _ ↦ .inl rfl⟩

theorem Loses.trans {m m' m'' : TTLMap K V} (h : Loses m m') (h' : Loses m' m'') :
    Loses m m'' := by
  refine ⟨h'.keyed, fun k ↦ ?_⟩
  obtain hsame | hnone := h'.peek k
  · rw [hsame]
    exact h.peek k
  · exact .inr hnone

theorem SameEntries.peek {m m' : TTLMap K V} (h : SameEntries m m') (k : K) :
    m'.peek k = m.peek k := by
  rw [TTLMap.peek, TTLMap.peek, h.items]
  simp only [h.item]

theorem SameEntries.keyed {m m' : TTLMap K V} (h : SameEntries m m') (hm : Keyed m) :
    Keyed m' := by
  constructor
  · intro k p hp
    rw [h.key]
    exact hm.key k p (h.items ▸ hp)
  · intro k p hp
    rw [h.fresh]
    exact hm.allocated k p (h.items ▸ hp)

theorem SameEntries.loses {m m' : TTLMap K V} (h : SameEntries m m') (hm : Keyed m) :
    Loses m m' :=
  ⟨h.keyed hm, fun k ↦ .inl (h.peek k)⟩

/-! ## Removals -/

theorem keyed_erase {m : TTLMap K V} (h : Keyed m) (k₀ : K) :
    Loses m { m with items := m.items.erase k₀ } := by
  have hkept : ∀ k p, (m.items.erase k₀).lookup k = some p → m.items.lookup k = some p := by
    intro k p hp
    by_cases hk : k = k₀
    · subst hk
      rw [AList.lookup_erase] at hp
      cases hp
    · rwa [AList.lookup_erase_ne hk] at hp
  refine ⟨⟨fun k p hp ↦ h.key k p (hkept k p hp), fun k p hp ↦ h.allocated k p (hkept k p hp)⟩, ?_⟩
  intro k
  rw [peek, peek]
  by_cases hk : k = k₀
  · subst hk
    rw [AList.lookup_erase]
    exact .inr rfl
  · rw [AList.lookup_erase_ne hk]
    exact .inl rfl

theorem detach_loses {m : TTLMap K V} (h : Keyed m) (p : Ptr) : Loses m (m.detach p) := by
  have herase := keyed_erase h (m.heap p).key
  exact herase.trans ((removeNode_same _ p).loses herase.keyed)

/-- The node found under a key takes that key away. -/
theorem peek_detach {m : TTLMap K V} (h : Keyed m) {k : K} {p : Ptr}
    (hp : m.items.lookup k = some p) : (m.detach p).peek k = none := by
  rw [detach, (removeNode_same _ p).peek, h.key k p hp, peek, AList.lookup_erase]
  rfl

theorem dropExpired_loses {m : TTLMap K V} (h : Keyed m) (key : K) (now : Time) :
    Loses m (m.dropExpired key now) := by
  rw [dropExpired]
  split
  · split
    · exact detach_loses h _
    · exact .refl h
  · exact .refl h

theorem foldl_dropExpired_loses {m : TTLMap K V} (h : Keyed m) (keys : List K) (now : Time) :
    Loses m (keys.foldl (·.dropExpired · now) m) := by
  induction keys generalizing m with
  | nil => exact .refl h
  | cons key keys ih =>
      have hdrop := dropExpired_loses h key now
      exact hdrop.trans (ih hdrop.keyed)

theorem removeOldest_loses {m : TTLMap K V} (h : Keyed m) : Loses m m.removeOldest := by
  rw [removeOldest]
  split
  · exact detach_loses h _
  · exact .refl h

theorem evictWhile_loses {cond : TTLMap K V → Bool} {fuel : Nat} {m m' : TTLMap K V}
    (h : Keyed m) (heq : evictWhile cond fuel m = some m') : Loses m m' := by
  induction fuel generalizing m with
  | zero => cases heq
  | succ fuel ih =>
      rw [evictWhile] at heq
      split at heq
      · have holdest := removeOldest_loses h
        exact holdest.trans (ih holdest.keyed heq)
      · cases heq
        exact .refl h

theorem resize_loses {m m' : TTLMap K V} {maxSize : Int} {fuel : Nat} (h : Keyed m)
    (heq : m.resize maxSize fuel = some m') : Loses m m' := by
  rw [resize, Option.map_eq_some_iff] at heq
  obtain ⟨evicted, hevicted, rfl⟩ := heq
  have hloses : Loses m evicted := by
    split at hevicted
    · exact evictWhile_loses h hevicted
    · cases hevicted
      exact .refl h
  exact ⟨⟨hloses.keyed.key, hloses.keyed.allocated⟩, hloses.peek⟩

theorem delete_loses {m : TTLMap K V} (h : Keyed m) (key : K) (since now : Time) :
    Loses m (m.delete key since now).1 ∧ (m.delete key since now).1.peek key = none := by
  rw [delete]
  split
  next node hnode =>
    have hdetach := detach_loses h node
    have hsame := startCleanup_same (m.detach node) since now
    refine ⟨hdetach.trans (hsame.loses hdetach.keyed), ?_⟩
    rw [hsame.peek, peek_detach h hnode]
  next hnode =>
    have hsame := startCleanup_same m since now
    refine ⟨hsame.loses h, ?_⟩
    rw [hsame.peek, peek, hnode]
    rfl

/-! ## Get -/

theorem get_loses {m : TTLMap K V} (h : Keyed m) (key : K) (now : Time) :
    Loses m (m.get key now).1 := by
  rw [get]
  split
  · exact .refl h
  · split
    · exact dropExpired_loses h key now
    · exact (moveToFront_same m _).loses h

/-- `Get` returns what the map holds after it: an item past its deadline goes. -/
theorem get_eq_peek {m : TTLMap K V} (h : Keyed m) (key : K) (now : Time) :
    (m.get key now).2 = ((m.get key now).1.peek key).map (·.value) := by
  rw [get]
  cases hnode : m.items.lookup key with
  | none =>
      simp only [peek, hnode]
      rfl
  | some node =>
      by_cases hexpired : (m.heap node).item.expired now = true
      · simp only [hexpired, if_true, dropExpired, hnode, peek_detach h hnode]
        rfl
      · simp only [hexpired, Bool.false_eq_true, if_false, (moveToFront_same m node).peek]
        rw [peek, hnode]
        rfl

/-! ## Set -/

/-- `m'` holds the item under the key, and elsewhere what `m` held, some keys apart. -/
structure Puts (m m' : TTLMap K V) (key : K) (item : Item V) : Prop where
  keyed : Keyed m'
  stored : m'.peek key = some item
  other : ∀ k, k ≠ key → m'.peek k = m.peek k ∨ m'.peek k = none

theorem Puts.of_loses {m m' m'' : TTLMap K V} {key : K} {item : Item V} (h : Loses m m')
    (h' : Puts m' m'' key item) : Puts m m'' key item := by
  refine ⟨h'.keyed, h'.stored, fun k hk ↦ ?_⟩
  obtain hsame | hnone := h'.other k hk
  · rw [hsame]
    exact h.peek k
  · exact .inr hnone

theorem Puts.same {m m' m'' : TTLMap K V} {key : K} {item : Item V} (h : Puts m m' key item)
    (h' : SameEntries m' m'') : Puts m m'' key item where
  keyed := h'.keyed h.keyed
  stored := by rw [h'.peek, h.stored]
  other k hk := by
    rw [h'.peek]
    exact h.other k hk

theorem setItem_puts {m : TTLMap K V} (h : Keyed m) {key : K} {node : Ptr}
    (hnode : m.items.lookup key = some node) (item : Item V) :
    Puts m (m.setItem node item) key item := by
  refine ⟨⟨fun k p hp ↦ ?_, fun k p hp ↦ h.allocated k p hp⟩, ?_, fun k hk ↦ .inl ?_⟩
  · rw [(setItem_links m node item p).1]
    exact h.key k p hp
  · simp only [peek, setItem, hnode, Option.map_some, Function.update_self]
  · rw [peek, peek]
    change (m.items.lookup k).map _ = _
    apply Option.map_congr
    intro p hp
    -- the node of another key is another node
    have hne : p ≠ node := by
      rintro rfl
      exact hk ((h.key k p hp).symm.trans (h.key key p hnode))
    simp only [setItem, Function.update_of_ne hne]

theorem Allocates.puts {m m' : TTLMap K V} {key : K} {item : Item V}
    (halloc : Allocates m m' key item) (h : Keyed m) : Puts m m' key item := by
  refine ⟨⟨fun k p hp ↦ ?_, fun k p hp ↦ ?_⟩, ?_, fun k hk ↦ .inl ?_⟩
  · by_cases hk : k = key
    · subst hk
      cases halloc.lookup_self.symm.trans hp
      exact halloc.newKey
    · rw [halloc.lookup_of_ne hk] at hp
      rw [halloc.oldKey p (h.allocated k p hp).ne]
      exact h.key k p hp
  · rw [halloc.fresh]
    by_cases hk : k = key
    · subst hk
      cases halloc.lookup_self.symm.trans hp
      exact Nat.lt_succ_self _
    · rw [halloc.lookup_of_ne hk] at hp
      exact Nat.lt_succ_of_lt (h.allocated k p hp)
  · rw [peek, halloc.lookup_self, Option.map_some, halloc.newItem]
  · rw [peek, peek, halloc.lookup_of_ne hk]
    apply Option.map_congr
    intro p hp
    exact halloc.oldItem p (h.allocated k p hp).ne

theorem set_puts {m m' : TTLMap K V} {key : K} {value : V} {deadline since now : Time} {fuel : Nat}
    {spawn : Bool} (h : Keyed m)
    (heq : m.set key value deadline since now fuel = some (m', spawn)) :
    Puts m m' key ⟨value, deadline⟩ := by
  rw [set] at heq
  split at heq
  next node hnode =>
    cases heq
    exact (setItem_puts h hnode _).same (moveToFront_same ..)
  next hnode =>
    obtain ⟨evicted, hevicted, hrest⟩ := Option.bind_eq_some_iff.mp heq
    have hm' : _ = m' := congrArg Prod.fst (Option.some.inj hrest)
    rw [← hm']
    have hloses := evictWhile_loses h hevicted
    have hputs := (insertNew_allocates evicted key value deadline).puts hloses.keyed
    exact (hputs.same (startCleanup_same ..)).of_loses hloses

theorem new_peek [Inhabited K] [Inhabited V] (maxSize : Int) (now : Time) (k : K) :
    (new maxSize now : TTLMap K V).peek k = none := by
  rw [peek, new, AList.lookup_empty]
  rfl

theorem new_keyed [Inhabited K] [Inhabited V] (maxSize : Int) (now : Time) :
    Keyed (new maxSize now : TTLMap K V) := by
  constructor <;>
  · intro k p hp
    exact absurd hp (by simp [new])

end TTLMap

end CommonLib.XTTLMap
