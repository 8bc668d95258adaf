import CommonLib.XTTLMap.Linked

/-!
# The TTL map under interleaved calls

`Set`, `Delete`, `Resize` and the cleanup look every node up under the lock they splice it under.
`Get` does not: it splices the node it found under an earlier read lock.  The list and the map agree
in every state of a run exactly when each such node was still stored.
-/

namespace CommonLib.XTTLMap

open CommonLib.Reasoning

variable {K V : Type} [DecidableEq K]

namespace TTLMap

/-- `node` is what `items` holds under its key. -/
def Holds (m : TTLMap K V) (node : Ptr) : Prop := m.items.lookup (m.heap node).key = some node

/-- The list read from `head` has the stored nodes, each once, `tail` gives its reverse, every node
is stored under its own key, and there are at most `maxSize`. -/
def WellLinked (m : TTLMap K V) : Prop :=
  ∃ l, Linked m l ∧ (∀ p, p ∈ l ↔ ∃ k, m.items.lookup k = some p) ∧
    (∀ k p, m.items.lookup k = some p → (m.heap p).key = k) ∧ (m.items.size : Int) ≤ m.maxSize

/-- The list `l` agrees with the map; new nodes are at addresses that `l` does not use. -/
structure Agrees (m : TTLMap K V) (l : List Ptr) : Prop where
  linked : Linked m l
  stored : ∀ p, p ∈ l ↔ m.Holds p
  key : ∀ k p, m.items.lookup k = some p → (m.heap p).key = k
  allocated : ∀ p ∈ l, p < m.fresh

theorem Agrees.holds {m : TTLMap K V} {l : List Ptr} (h : Agrees m l) {k : K} {p : Ptr}
    (hk : m.items.lookup k = some p) : p ∈ l := by
  rw [h.stored, Holds, h.key k p hk]
  exact hk

theorem Agrees.wellLinked {m : TTLMap K V} {l : List Ptr} (h : Agrees m l)
    (hsize : (m.items.size : Int) ≤ m.maxSize) : m.WellLinked :=
  ⟨l, h.linked, fun p ↦ ⟨fun hp ↦ ⟨_, (h.stored p).mp hp⟩, fun ⟨_, hk⟩ ↦ h.holds hk⟩, h.key, hsize⟩

/-- Relinking the same nodes keeps the agreement. -/
theorem Agrees.relink {m m' : TTLMap K V} {l l' : List Ptr} (h : Agrees m l)
    (hkey : ∀ p, (m'.heap p).key = (m.heap p).key) (hitems : m'.items = m.items)
    (hfresh : m'.fresh = m.fresh) (hlinked : Linked m' l') (hmem : ∀ p, p ∈ l' ↔ p ∈ l) :
    Agrees m' l' where
  linked := hlinked
  stored p := by rw [hmem, h.stored, Holds, Holds, hkey, hitems]
  key k p hk := by
    rw [hkey]
    exact h.key k p (hitems ▸ hk)
  allocated p hp := by
    rw [hfresh]
    exact h.allocated p ((hmem p).mp hp)

theorem Agrees.withSettings {m : TTLMap K V} {l : List Ptr} (h : Agrees m l) (lastCleanup : Time)
    (cleaning : Bool) (maxSize : Int) :
    Agrees { m with lastCleanup := lastCleanup, cleaning := cleaning, maxSize := maxSize } l :=
  h.relink (fun _ ↦ rfl) rfl rfl ⟨h.linked.forward, h.linked.backward, h.linked.nodup⟩
    fun _ ↦ Iff.rfl

theorem setItem_agrees {m : TTLMap K V} {l : List Ptr} (h : Agrees m l) (p : Ptr) (item : Item V) :
    Agrees (m.setItem p item) l := by
  have hsame := setItem_links m p item
  refine h.relink (fun q ↦ (hsame q).1) rfl rfl ⟨?_, ?_, h.linked.nodup⟩ fun _ ↦ Iff.rfl
  · exact h.linked.forward.frame fun a _ ↦ (hsame a).2.1
  · exact h.linked.backward.frame fun a _ ↦ (hsame a).2.2

/-- Taking a node out of a list that has it once. -/
theorem erase_middle {xs ys : List Ptr} {p : Ptr} (h : (xs ++ p :: ys).Nodup) :
    (xs ++ p :: ys).erase p = xs ++ ys := by
  have hnotin := (List.nodup_cons.mp (List.nodup_middle.mp h)).1
  have hxs : p ∉ xs := fun hp ↦ hnotin (List.mem_append_left ys hp)
  rw [List.erase_append_right _ hxs, List.erase_cons_head]

theorem moveToFront_agrees {m : TTLMap K V} {l : List Ptr} (h : Agrees m l) {p : Ptr}
    (hp : p ∈ l) : Agrees (m.moveToFront p) (p :: l.erase p) := by
  rw [moveToFront]
  split
  next hhead =>
    obtain ⟨rest, rfl⟩ : ∃ rest, l = p :: rest :=
      List.head?_eq_some_iff.mp (h.linked.forward.head?_eq ▸ hhead)
    rwa [List.erase_cons_head]
  next =>
    obtain ⟨xs, ys, rfl⟩ := List.append_of_mem hp
    have hsame := (removeNode_same m p).trans (addToFront_same _ p)
    have hnotin := (List.nodup_cons.mp (List.nodup_middle.mp h.linked.nodup)).1
    rw [erase_middle h.linked.nodup]
    refine h.relink hsame.key hsame.items hsame.fresh
      (addToFront_linked (removeNode_linked h.linked) hnotin) fun q ↦ ?_
    simp only [List.mem_cons, List.mem_append]
    tauto

theorem detach_frame (m : TTLMap K V) (p : Ptr) :
    (∀ q, ((m.detach p).heap q).key = (m.heap q).key) ∧
      (m.detach p).items = m.items.erase (m.heap p).key ∧ (m.detach p).fresh = m.fresh ∧
      (m.detach p).maxSize = m.maxSize := by
  have hsame := removeNode_same { m with items := m.items.erase (m.heap p).key } p
  exact ⟨hsame.key, hsame.items, hsame.fresh, hsame.maxSize⟩

/-- Only the entry of the node's own key goes. -/
theorem lookup_detach (m : TTLMap K V) (p : Ptr) (k : K) (q : Ptr) :
    (m.detach p).items.lookup k = some q ↔ k ≠ (m.heap p).key ∧ m.items.lookup k = some q := by
  rw [(detach_frame m p).2.1]
  by_cases hk : k = (m.heap p).key
  · subst hk
    simp
  · rw [AList.lookup_erase_ne hk]
    simp [hk]

theorem detach_agrees {m : TTLMap K V} {l : List Ptr} (h : Agrees m l) {p : Ptr} (hp : p ∈ l) :
    Agrees (m.detach p) (l.erase p) := by
  have hpk : m.items.lookup (m.heap p).key = some p := (h.stored p).mp hp
  obtain ⟨hkey, -, hfresh, -⟩ := detach_frame m p
  have hmem (q : Ptr) : q ∈ l.erase p ↔ q ≠ p ∧ q ∈ l := h.linked.nodup.mem_erase_iff
  refine ⟨?_, fun q ↦ ?_, fun k q hk ↦ ?_, fun q hq ↦ ?_⟩
  · obtain ⟨xs, ys, rfl⟩ := List.append_of_mem hp
    have hlinked : Linked { m with items := m.items.erase (m.heap p).key } (xs ++ p :: ys) :=
      ⟨h.linked.forward, h.linked.backward, h.linked.nodup⟩
    rw [erase_middle h.linked.nodup]
    exact removeNode_linked hlinked
  · -- Another stored node has another key, since each key stores one node.
    have hkeys : m.Holds q → (q ≠ p ↔ (m.heap q).key ≠ (m.heap p).key) := by
      intro hq
      refine not_congr ⟨fun heq ↦ heq ▸ rfl, fun heq ↦ ?_⟩
      rw [Holds, heq, hpk] at hq
      exact (Option.some.inj hq).symm
    rw [Holds, hkey, lookup_detach, hmem, h.stored]
    exact and_congr_left hkeys
  · rw [hkey]
    exact h.key k q ((lookup_detach m p k q).mp hk).2
  · rw [hfresh]
    exact h.allocated q ((hmem q).mp hq).2

theorem detach_size {m : TTLMap K V} {l : List Ptr} (h : Agrees m l) {p : Ptr} (hp : p ∈ l) :
    (m.detach p).items.size + 1 = m.items.size := by
  have hpk : m.items.lookup (m.heap p).key = some p := (h.stored p).mp hp
  rw [(detach_frame m p).2.1]
  refine GoMap.size_erase_of_mem (AList.lookup_isSome.mp ?_)
  rw [hpk]
  rfl

/-! ## What the locked sections keep -/

/-- `m'` comes from `m` by splicing and removing stored nodes. -/
structure Keeps (m m' : TTLMap K V) : Prop where
  agrees : ∃ l, Agrees m' l
  size_le : m'.items.size ≤ m.items.size
  absent : ∀ k, m.items.lookup k = none → m'.items.lookup k = none
  maxSize_eq : m'.maxSize = m.maxSize

theorem Keeps.refl {m : TTLMap K V} {l : List Ptr} (h : Agrees m l) : Keeps m m :=
  ⟨⟨l, h⟩, le_rfl, fun _ ↦ id, rfl⟩

theorem Keeps.trans {m m' m'' : TTLMap K V} (h : Keeps m m') (h' : Keeps m' m'') : Keeps m m'' :=
  ⟨h'.agrees, h'.size_le.trans h.size_le, fun k hk ↦ h'.absent k (h.absent k hk),
    h'.maxSize_eq.trans h.maxSize_eq⟩

theorem detach_keeps {m : TTLMap K V} {l : List Ptr} (h : Agrees m l) {p : Ptr} (hp : p ∈ l) :
    Keeps m (m.detach p) := by
  have hsize := detach_size h hp
  obtain ⟨-, hitems, -, hmax⟩ := detach_frame m p
  refine ⟨⟨_, detach_agrees h hp⟩, by omega, fun k hk ↦ ?_, hmax⟩
  rw [AList.lookup_eq_none] at hk ⊢
  rw [hitems, AList.mem_erase]
  exact fun hmem ↦ hk hmem.2

theorem moveToFront_keeps {m : TTLMap K V} {l : List Ptr} (h : Agrees m l) {p : Ptr}
    (hp : p ∈ l) : Keeps m (m.moveToFront p) := by
  have hsame := moveToFront_same m p
  exact ⟨⟨_, moveToFront_agrees h hp⟩, hsame.items ▸ le_rfl, fun _ hk ↦ hsame.items ▸ hk,
    hsame.maxSize⟩

theorem dropExpired_keeps {m : TTLMap K V} {l : List Ptr} (h : Agrees m l) (key : K)
    (now : Time) : Keeps m (m.dropExpired key now) := by
  rw [dropExpired]
  split
  next node hnode =>
    split
    · exact detach_keeps h (h.holds hnode)
    · exact .refl h
  next => exact .refl h

theorem foldl_dropExpired_keeps {m : TTLMap K V} {l : List Ptr} (h : Agrees m l)
    (keys : List K) (now : Time) : Keeps m (keys.foldl (·.dropExpired · now) m) := by
  induction keys generalizing m l with
  | nil => exact .refl h
  | cons key keys ih =>
      have hdrop := dropExpired_keeps h key now
      obtain ⟨l', h'⟩ := hdrop.agrees
      exact hdrop.trans (ih h')

theorem Agrees.eq_nil_iff {m : TTLMap K V} {l : List Ptr} (h : Agrees m l) :
    l = [] ↔ m.items.size = 0 := by
  rw [GoMap.size_eq_zero_iff]
  constructor
  · rintro rfl k
    cases hk : m.items.lookup k with
    | none => rfl
    | some p => exact absurd (h.holds hk) List.not_mem_nil
  · intro hnone
    refine List.eq_nil_iff_forall_not_mem.mpr fun p hp ↦ ?_
    have hheld := (h.stored p).mp hp
    rw [Holds, hnone] at hheld
    cases hheld

theorem Agrees.tail_eq {m : TTLMap K V} {l : List Ptr} (h : Agrees m l) : m.tail = l.getLast? := by
  rw [h.linked.backward.head?_eq, List.head?_reverse]

/-- As long as something is stored, `tail` is the oldest node and goes. -/
theorem removeOldest_size {m : TTLMap K V} {l : List Ptr} (h : Agrees m l)
    (hpos : 0 < m.items.size) :
    Keeps m m.removeOldest ∧ m.removeOldest.items.size + 1 = m.items.size := by
  have hl : l ≠ [] := fun hnil ↦ by
    have := h.eq_nil_iff.mp hnil
    omega
  rw [removeOldest, h.tail_eq, List.getLast?_eq_getLast_of_ne_nil hl]
  have hmem := List.getLast_mem hl
  exact ⟨detach_keeps h hmem, detach_size h hmem⟩

theorem removeOldest_keeps {m : TTLMap K V} {l : List Ptr} (h : Agrees m l) :
    Keeps m m.removeOldest := by
  by_cases hpos : 0 < m.items.size
  · exact (removeOldest_size h hpos).1
  · have hnil : l = [] := h.eq_nil_iff.mpr (by omega)
    rw [removeOldest, h.tail_eq, hnil]
    exact .refl h

theorem evictWhile_keeps {cond : TTLMap K V → Bool} {fuel : Nat} {m m' : TTLMap K V}
    {l : List Ptr} (h : Agrees m l) (heq : evictWhile cond fuel m = some m') :
    Keeps m m' ∧ cond m' = false := by
  induction fuel generalizing m l with
  | zero => cases heq
  | succ fuel ih =>
      rw [evictWhile] at heq
      split at heq
      · have hkeeps := removeOldest_keeps h
        obtain ⟨l', h'⟩ := hkeeps.agrees
        obtain ⟨hrest, hcond⟩ := ih h' heq
        exact ⟨hkeeps.trans hrest, hcond⟩
      · cases heq
        exact ⟨.refl h, Bool.eq_false_iff.mpr ‹_›⟩

/-- The loop ends: each round evicts one of finitely many nodes. -/
theorem evictWhile_returns (cond : TTLMap K V → Bool) {fuel : Nat} {m : TTLMap K V} {l : List Ptr}
    (hcond : ∀ m', m'.maxSize = m.maxSize → cond m' = true → m'.items.size ≠ 0)
    (h : Agrees m l) (hfuel : m.items.size < fuel) :
    ∃ m', evictWhile cond fuel m = some m' := by
  induction fuel generalizing m l with
  | zero => omega
  | succ fuel ih =>
      rw [evictWhile]
      split
      next hc =>
        have hne := hcond m rfl hc
        obtain ⟨hkeeps, hsize⟩ := removeOldest_size h (by omega)
        obtain ⟨l', h'⟩ := hkeeps.agrees
        exact ih (hkeeps.maxSize_eq ▸ hcond) h' (by omega)
      next => exact ⟨m, rfl⟩

/-- A node for a key that had none, at the front of the list. -/
theorem Allocates.agrees {m m' : TTLMap K V} {l : List Ptr} {key : K} {item : Item V}
    (halloc : Allocates m m' key item) (h : Agrees m l) (hkey : m.items.lookup key = none)
    (hlinked : Linked m' (m.fresh :: l)) : Agrees m' (m.fresh :: l) where
  linked := hlinked
  stored p := by
    rw [List.mem_cons, Holds]
    by_cases hp : p = m.fresh
    · subst hp
      rw [halloc.newKey, halloc.lookup_self]
      simp
    · rw [halloc.oldKey p hp, h.stored, Holds]
      by_cases hpk : (m.heap p).key = key
      · rw [hpk, hkey, halloc.lookup_self]
        simp [hp, Ne.symm hp]
      · rw [halloc.lookup_of_ne hpk]
        simp [hp]
  key k p hk := by
    by_cases hkk : k = key
    · subst hkk
      cases halloc.lookup_self.symm.trans hk
      exact halloc.newKey
    · rw [halloc.lookup_of_ne hkk] at hk
      rw [halloc.oldKey p (h.allocated p (h.holds hk)).ne]
      exact h.key k p hk
  allocated p hp := by
    rw [halloc.fresh]
    rcases List.mem_cons.mp hp with rfl | hp
    · exact Nat.lt_succ_self _
    · exact Nat.lt_succ_of_lt (h.allocated p hp)

theorem insertNew_agrees {m : TTLMap K V} {l : List Ptr} (h : Agrees m l) {key : K}
    (hkey : m.items.lookup key = none) (value : V) (deadline : Time) :
    (∃ l', Agrees (m.insertNew key value deadline) l') ∧
      (m.insertNew key value deadline).items.size = m.items.size + 1 ∧
      (m.insertNew key value deadline).maxSize = m.maxSize := by
  have halloc := insertNew_allocates m key value deadline
  have hlinked := insertNew_linked m key value deadline h.linked fun p hp ↦ (h.allocated p hp).ne
  refine ⟨⟨_, halloc.agrees h hkey hlinked⟩, ?_, halloc.maxSize⟩
  rw [halloc.items, GoMap.size_insert_of_notMem _ (AList.lookup_eq_none.mp hkey)]

theorem startCleanup_frame (m : TTLMap K V) (since now : Time) {l : List Ptr} :
    (Agrees m l → Agrees (m.startCleanup since now).1 l) ∧
      (m.startCleanup since now).1.items = m.items ∧
      (m.startCleanup since now).1.maxSize = m.maxSize := by
  rw [startCleanup]
  split
  · exact ⟨fun h ↦ h.withSettings .., rfl, rfl⟩
  · exact ⟨id, rfl, rfl⟩

/-- What holds whenever the lock is free, whatever the limits. -/
structure Bounded (m : TTLMap K V) : Prop where
  agrees : ∃ l, Agrees m l
  size_le : (m.items.size : Int) ≤ max m.maxSize 0

/-- The same with a limit that leaves room for an entry. -/
structure Inv (m : TTLMap K V) : Prop where
  agrees : ∃ l, Agrees m l
  size_le : (m.items.size : Int) ≤ m.maxSize
  maxSize_pos : 1 ≤ m.maxSize

theorem Inv.wellLinked {m : TTLMap K V} (h : Inv m) : m.WellLinked :=
  h.agrees.elim fun _ hl ↦ hl.wellLinked h.size_le

theorem Inv.bounded {m : TTLMap K V} (h : Inv m) : Bounded m :=
  ⟨h.agrees, h.size_le.trans (le_max_left _ _)⟩

theorem Bounded.inv {m : TTLMap K V} (h : Bounded m) (hpos : 1 ≤ m.maxSize) : Inv m := by
  have hle := h.size_le
  exact ⟨h.agrees, by omega, hpos⟩

theorem Keeps.bounded {m m' : TTLMap K V} (hkeeps : Keeps m m') (h : Bounded m) : Bounded m' where
  agrees := hkeeps.agrees
  size_le := by
    have hsize := hkeeps.size_le
    have hle := h.size_le
    rw [hkeeps.maxSize_eq]
    omega

theorem Keeps.inv {m m' : TTLMap K V} (hkeeps : Keeps m m') (h : Inv m) : Inv m' :=
  (hkeeps.bounded h.bounded).inv (hkeeps.maxSize_eq ▸ h.maxSize_pos)

theorem startCleanup_bounded {m : TTLMap K V} (h : Bounded m) (since now : Time) :
    Bounded (m.startCleanup since now).1 := by
  obtain ⟨l, hl⟩ := h.agrees
  obtain ⟨hagrees, hitems, hmax⟩ := startCleanup_frame m since now (l := l)
  refine ⟨⟨l, hagrees hl⟩, ?_⟩
  rw [hitems, hmax]
  exact h.size_le

theorem set_bounded {m m' : TTLMap K V} (h : Bounded m) {key : K} {value : V}
    {deadline since now : Time} {fuel : Nat} {spawn : Bool}
    (heq : m.set key value deadline since now fuel = some (m', spawn)) :
    Bounded m' ∧ m'.maxSize = m.maxSize := by
  obtain ⟨l, hl⟩ := h.agrees
  rw [set] at heq
  split at heq
  next node hnode =>
    cases heq
    have hitem := setItem_agrees hl node ⟨value, deadline⟩
    -- The key is known: its node was looked up under this lock.
    have hkeeps := moveToFront_keeps hitem (hl.holds hnode)
    exact ⟨hkeeps.bounded ⟨⟨l, hitem⟩, h.size_le⟩, hkeeps.maxSize_eq⟩
  next hnone =>
    -- Once the loop has ended there is room for one more, which the new node takes.
    obtain ⟨m₁, hevict, hret⟩ := Option.bind_eq_some_iff.mp heq
    obtain ⟨hkeeps, hcond⟩ := evictWhile_keeps hl hevict
    obtain ⟨l₁, hl₁⟩ := hkeeps.agrees
    have hlt : ¬ (m₁.items.size : Int) ≥ m₁.maxSize := of_decide_eq_false hcond
    obtain ⟨hagrees, hsize, hmax⟩ :=
      insertNew_agrees hl₁ (hkeeps.absent key hnone) value deadline
    have hm' : m' = ((m₁.insertNew key value deadline).startCleanup since now).1 :=
      congrArg Prod.fst (Option.some.inj hret).symm
    rw [hm']
    refine ⟨startCleanup_bounded ⟨hagrees, ?_⟩ since now, ?_⟩
    · rw [hsize, hmax]
      push_cast
      omega
    · rw [(startCleanup_same ..).maxSize, hmax, hkeeps.maxSize_eq]

theorem set_inv {m m' : TTLMap K V} (h : Inv m) {key : K} {value : V}
    {deadline since now : Time} {fuel : Nat} {spawn : Bool}
    (heq : m.set key value deadline since now fuel = some (m', spawn)) : Inv m' := by
  obtain ⟨hbounded, hmax⟩ := set_bounded h.bounded heq
  exact hbounded.inv (hmax ▸ h.maxSize_pos)

/-- `Set` returns if the key is known or there is room for an entry at all. -/
theorem set_returns_of_room {m : TTLMap K V} {l : List Ptr} (hl : Agrees m l) {key : K}
    (hroom : (m.items.lookup key).isSome ∨ 1 ≤ m.maxSize) (value : V) (deadline since now : Time)
    {fuel : Nat} (hfuel : m.items.size < fuel) :
    (m.set key value deadline since now fuel).isSome := by
  rw [set]
  split
  · rfl
  next hnone =>
    have hpos : 1 ≤ m.maxSize := by
      rw [hnone] at hroom
      exact hroom.resolve_left Bool.false_ne_true
    obtain ⟨m', hm'⟩ := evictWhile_returns (fun s ↦ decide (s.items.size ≥ s.maxSize))
      (fun m' hmax hc ↦ by
        have := of_decide_eq_true hc
        omega) hl hfuel
    rw [hm']
    rfl

theorem set_returns {m : TTLMap K V} (h : Inv m) (key : K) (value : V) (deadline since now : Time)
    {fuel : Nat} (hfuel : m.items.size < fuel) :
    (m.set key value deadline since now fuel).isSome :=
  h.agrees.elim fun _ hl ↦ set_returns_of_room hl (.inr h.maxSize_pos) value deadline since now hfuel

theorem delete_bounded {m : TTLMap K V} (h : Bounded m) (key : K) (since now : Time) :
    Bounded (m.delete key since now).1 ∧ (m.delete key since now).1.maxSize = m.maxSize := by
  obtain ⟨l, hl⟩ := h.agrees
  rw [delete, (startCleanup_same ..).maxSize]
  split
  next node hnode =>
    have hkeeps := detach_keeps hl (hl.holds hnode)
    exact ⟨startCleanup_bounded (hkeeps.bounded h) since now, hkeeps.maxSize_eq⟩
  next => exact ⟨startCleanup_bounded h since now, rfl⟩

theorem delete_inv {m : TTLMap K V} (h : Inv m) (key : K) (since now : Time) :
    Inv (m.delete key since now).1 := by
  obtain ⟨hbounded, hmax⟩ := delete_bounded h.bounded key since now
  exact hbounded.inv (hmax ▸ h.maxSize_pos)

theorem resize_bounded {m m' : TTLMap K V} (h : Bounded m) {maxSize : Int} {fuel : Nat}
    (heq : m.resize maxSize fuel = some m') : Bounded m' ∧ m'.maxSize = maxSize := by
  obtain ⟨l, hl⟩ := h.agrees
  rw [resize] at heq
  obtain ⟨m₁, hevict, rfl⟩ := Option.map_eq_some_iff.mp heq
  have hkeeps : Keeps m m₁ ∧ (m₁.items.size : Int) ≤ max maxSize 0 := by
    split at hevict
    · obtain ⟨hkeeps, hcond⟩ := evictWhile_keeps hl hevict
      have hle : ¬ (m₁.items.size : Int) > maxSize := of_decide_eq_false hcond
      exact ⟨hkeeps, by omega⟩
    · cases hevict
      have hle := h.size_le
      exact ⟨.refl hl, by omega⟩
  obtain ⟨l₁, hl₁⟩ := hkeeps.1.agrees
  exact ⟨⟨⟨l₁, hl₁.withSettings ..⟩, hkeeps.2⟩, rfl⟩

theorem resize_inv {m m' : TTLMap K V} (h : Inv m) {maxSize : Int} {fuel : Nat}
    (hpos : 1 ≤ maxSize) (heq : m.resize maxSize fuel = some m') : Inv m' := by
  obtain ⟨hbounded, hmax⟩ := resize_bounded h.bounded heq
  exact hbounded.inv (hmax.symm ▸ hpos)

/-- `Resize` returns unless it has to evict down to less than nothing. -/
theorem resize_returns_of_room {m : TTLMap K V} {l : List Ptr} (hl : Agrees m l) {maxSize : Int}
    (hroom : m.maxSize ≤ maxSize ∨ 0 ≤ maxSize) {fuel : Nat} (hfuel : m.items.size < fuel) :
    (m.resize maxSize fuel).isSome := by
  rw [resize, Option.isSome_map]
  split
  · obtain ⟨m', hm'⟩ := evictWhile_returns (fun s ↦ decide (s.items.size > maxSize))
      (fun m' _ hc ↦ by
        have := of_decide_eq_true hc
        omega) hl hfuel
    rw [hm']
    rfl
  · rfl

theorem resize_returns {m : TTLMap K V} (h : Inv m) {maxSize : Int} (hpos : 1 ≤ maxSize)
    {fuel : Nat} (hfuel : m.items.size < fuel) : (m.resize maxSize fuel).isSome :=
  h.agrees.elim fun _ hl ↦ resize_returns_of_room hl (.inr (by omega)) hfuel

/-- Splicing a node that is no longer stored puts it at the head of the list all the same. -/
theorem holds_of_moveToFront {m : TTLMap K V} {node : Ptr} (h : (m.moveToFront node).WellLinked) :
    m.Holds node := by
  have hsame : SameEntries m (m.moveToFront node) := moveToFront_same m node
  have hhead : (m.moveToFront node).head = some node := by
    rw [moveToFront]
    split
    · assumption
    · exact (addToFront_ends ..).1
  -- What is at the head is in the list, and so has to be stored.
  obtain ⟨l, hlinked, hstored, hkey, -⟩ := h
  have hmem : node ∈ l := List.mem_of_head? (hlinked.forward.head?_eq ▸ hhead)
  obtain ⟨k, hk⟩ := (hstored node).mp hmem
  have hk' := hkey k node hk
  rw [hsame.key] at hk'
  rw [Holds, hk', ← hsame.items]
  exact hk

end TTLMap

/-! ## Runs -/

open TTLMap

/-- The node `Get` splices is still stored when it takes the lock. -/
def Event.TouchesStored (s : System K V) : Event K V → Prop
  | .getTouch node => s.map.Holds node
  | _ => True

def Event.ResizesToPositive : Event K V → Prop
  | .resize maxSize _ => 1 ≤ maxSize
  | _ => True

/-- The limit after a step. -/
def Event.limit (maxSize : Int) : Event K V → Int
  | .resize maxSize _ => maxSize
  | _ => maxSize

theorem step_bounded {s t : System K V} {e : Event K V} (h : s.map.Bounded)
    (htouch : e.TouchesStored s) (hstep : step s e = some t) :
    t.map.Bounded ∧ t.map.maxSize = e.limit s.map.maxSize := by
  obtain ⟨l, hl⟩ := h.agrees
  have hkept : ∀ {m}, Keeps s.map m → m.Bounded ∧ m.maxSize = s.map.maxSize := fun hkeeps ↦
    ⟨hkeeps.bounded h, hkeeps.maxSize_eq⟩
  cases step_taken hstep with
  | set hset => exact set_bounded h hset
  | delete => exact delete_bounded h ..
  | resize hresize => exact resize_bounded h hresize
  | getFind | getCheck | cleanupCall | cleanupScan => exact ⟨h, rfl⟩
  | getDrop => exact hkept (dropExpired_keeps hl ..)
  | @getTouch node =>
      -- The only step that relies on the condition: the node comes from an earlier section.
      exact hkept (moveToFront_keeps hl ((hl.stored node).mpr htouch))
  | cleanupRemove => exact hkept (foldl_dropExpired_keeps hl ..)
  | cleanupDone => exact ⟨⟨⟨l, hl.withSettings ..⟩, h.size_le⟩, rfl⟩

theorem step_inv {s t : System K V} {e : Event K V} (h : s.map.Inv)
    (hresize : e.ResizesToPositive) (htouch : e.TouchesStored s) (hstep : step s e = some t) :
    t.map.Inv := by
  obtain ⟨hbounded, hmax⟩ := step_bounded h.bounded htouch hstep
  refine hbounded.inv ?_
  rw [hmax]
  cases e with
  | resize maxSize fuel => exact hresize
  | _ => exact h.maxSize_pos

theorem new_agrees [Inhabited K] [Inhabited V] (maxSize : Int) (now : Time) :
    Agrees (.new maxSize now : TTLMap K V) [] := by
  refine ⟨⟨rfl, rfl, List.nodup_nil⟩, fun p ↦ ?_, fun k p hk ↦ ?_, fun p hp ↦ ?_⟩
  · exact iff_of_false List.not_mem_nil nofun
  · cases hk
  · cases hp

theorem init_bounded [Inhabited K] [Inhabited V] (maxSize : Int) (now : Time) :
    (System.init maxSize now : System K V).map.Bounded :=
  ⟨⟨[], new_agrees maxSize now⟩, le_max_right _ _⟩

theorem init_inv [Inhabited K] [Inhabited V] {maxSize : Int} (hpos : 1 ≤ maxSize) (now : Time) :
    (System.init maxSize now : System K V).map.Inv :=
  (init_bounded maxSize now).inv hpos

theorem wellLinked_iff_touchesStored [Inhabited K] [Inhabited V] (maxSize : Int) (now : Time)
    (hpos : 1 ≤ maxSize) (es : List (Event K V)) (hresize : ∀ e ∈ es, e.ResizesToPositive) :
    EveryState step (fun s ↦ s.map.WellLinked) es (System.init maxSize now) ↔
      EveryStep step Event.TouchesStored es (System.init maxSize now) := by
  have hlinked : ∀ s : System K V, s.map.Inv → s.map.WellLinked := fun _ hs ↦ hs.wellLinked
  refine everyState_iff_everyStep hlinked
    (fun s e t hs hpositive hstored hstep ↦ step_inv hs hpositive hstored hstep)
    (fun s e t _ _ hstep ht ↦ ?_) hresize (init_inv hpos now)
  cases step_taken hstep with
  | getTouch => exact holds_of_moveToFront ht
  | _ => trivial

theorem wellLinked_getUndisturbed :
    EveryState (step (K := Nat) (V := Nat)) (fun s ↦ s.map.WellLinked)
      [.set 1 7 0 0 0 5, .getFind 1, .getCheck 1 0 0, .getTouch 0] (System.init 1 0) := by
  refine (wellLinked_iff_touchesStored 1 0 (by decide) _ (by simp [Event.ResizesToPositive])).mpr ?_
  rintro _ ⟨⟩
  refine ⟨trivial, ?_⟩
  rintro _ ⟨⟩
  refine ⟨trivial, ?_⟩
  rintro _ ⟨⟩
  refine ⟨trivial, ?_⟩
  rintro _ ⟨⟩
  exact ⟨rfl, trivial⟩

/-- `Delete` takes a node off the list while `Get` is between its two locks; `Get` then puts the
node back at the head of the list of an empty map. -/
theorem getTouch_relinks_deleted :
    ∃ s, runSteps (step (K := Nat) (V := Nat))
        [.set 1 7 0 0 0 5, .getFind 1, .getCheck 1 0 0, .delete 1 0 0, .getTouch 0]
        (System.init 1 0) = some s ∧
      s.calls = 0 ∧ s.map.items = ∅ ∧ s.map.head = some 0 ∧ ¬ s.map.WellLinked := by
  refine ⟨_, rfl, rfl, rfl, rfl, ?_⟩
  rintro ⟨l, hlinked, hstored, -⟩
  have hmem : 0 ∈ l := List.mem_of_head? hlinked.forward.head?_eq.symm
  obtain ⟨k, hk⟩ := (hstored 0).mp hmem
  cases hk

end CommonLib.XTTLMap
