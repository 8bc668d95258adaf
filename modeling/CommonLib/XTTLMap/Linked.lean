import CommonLib.XTTLMap.TTLMap

/-! The list operations of the TTL map on well linked nodes. -/

namespace CommonLib.XTTLMap

open CommonLib.Reasoning

variable {K V : Type}

namespace TTLMap

/-- The nodes from `head` by `next` are `l`, and those from `tail` by `prev` are its reverse. -/
structure Linked (m : TTLMap K V) (l : List Ptr) : Prop where
  forward : Walk (fun p ↦ (m.heap p).next) m.head l none
  backward : Walk (fun p ↦ (m.heap p).prev) m.tail l.reverse none
  nodup : l.Nodup

/-- `m'` differs from `m` in its links only. -/
structure SameEntries (m m' : TTLMap K V) : Prop where
  key : ∀ p, (m'.heap p).key = (m.heap p).key
  item : ∀ p, (m'.heap p).item = (m.heap p).item
  items : m'.items = m.items
  fresh : m'.fresh = m.fresh
  maxSize : m'.maxSize = m.maxSize

theorem SameEntries.refl (m : TTLMap K V) : SameEntries m m :=
  ⟨fun _ ↦ rfl, fun _ ↦ rfl, rfl, rfl, rfl⟩

theorem SameEntries.trans {m m' m'' : TTLMap K V} (h : SameEntries m m')
    (h' : SameEntries m' m'') : SameEntries m m'' :=
  ⟨fun p ↦ (h'.key p).trans (h.key p), fun p ↦ (h'.item p).trans (h.item p),
    h'.items.trans h.items, h'.fresh.trans h.fresh, h'.maxSize.trans h.maxSize⟩

theorem setNext_same (m : TTLMap K V) (p : Ptr) (o : Option Ptr) :
    SameEntries m (m.setNext p o) := by
  refine ⟨fun q ↦ ?_, fun q ↦ ?_, rfl, rfl, rfl⟩ <;>
  · simp only [setNext, Function.update_apply]
    split <;> simp_all

theorem setPrev_same (m : TTLMap K V) (p : Ptr) (o : Option Ptr) :
    SameEntries m (m.setPrev p o) := by
  refine ⟨fun q ↦ ?_, fun q ↦ ?_, rfl, rfl, rfl⟩ <;>
  · simp only [setPrev, Function.update_apply]
    split <;> simp_all

theorem removeNode_same (m : TTLMap K V) (p : Ptr) : SameEntries m (m.removeNode p) := by
  have hnext : SameEntries m (m.unlinkNext p) := by
    rw [unlinkNext]
    split
    · exact setNext_same ..
    · exact ⟨fun _ ↦ rfl, fun _ ↦ rfl, rfl, rfl, rfl⟩
  refine hnext.trans ?_
  rw [removeNode, unlinkPrev]
  split
  · exact setPrev_same ..
  · exact ⟨fun _ ↦ rfl, fun _ ↦ rfl, rfl, rfl, rfl⟩

theorem addToFront_same (m : TTLMap K V) (p : Ptr) : SameEntries m (m.addToFront p) := by
  have hlink := (setNext_same m p m.head).trans (setPrev_same _ p none)
  refine hlink.trans ?_
  rw [addToFront]
  split
  · exact (setPrev_same ..).trans ⟨fun _ ↦ rfl, fun _ ↦ rfl, rfl, rfl, rfl⟩
  · exact ⟨fun _ ↦ rfl, fun _ ↦ rfl, rfl, rfl, rfl⟩

theorem moveToFront_same (m : TTLMap K V) (p : Ptr) : SameEntries m (m.moveToFront p) := by
  rw [moveToFront]
  split
  · exact .refl m
  · exact (removeNode_same m p).trans (addToFront_same _ p)

theorem startCleanup_same (m : TTLMap K V) (since now : Time) :
    SameEntries m (m.startCleanup since now).1 := by
  rw [startCleanup]
  split
  · exact ⟨fun _ ↦ rfl, fun _ ↦ rfl, rfl, rfl, rfl⟩
  · exact .refl m

/-! ## Unlinking a node -/

theorem unlinkNext_next (m : TTLMap K V) (p a : Ptr) :
    ((m.unlinkNext p).heap a).next =
      if (m.heap p).prev = some a then (m.heap p).next else (m.heap a).next := by
  rw [unlinkNext]
  cases (m.heap p).prev with
  | none => simp
  | some q =>
      simp only [setNext, Function.update_apply, Option.some.injEq, eq_comm (a := q)]
      split <;> rfl

theorem unlinkNext_prev (m : TTLMap K V) (p a : Ptr) :
    ((m.unlinkNext p).heap a).prev = (m.heap a).prev := by
  rw [unlinkNext]
  split
  · simp only [setNext, Function.update_apply]
    split <;> simp_all
  · rfl

theorem unlinkPrev_prev (m : TTLMap K V) (p a : Ptr) :
    ((m.unlinkPrev p).heap a).prev =
      if (m.heap p).next = some a then (m.heap p).prev else (m.heap a).prev := by
  rw [unlinkPrev]
  cases (m.heap p).next with
  | none => simp
  | some q =>
      simp only [setPrev, Function.update_apply, Option.some.injEq, eq_comm (a := q)]
      split <;> rfl

theorem unlinkPrev_next (m : TTLMap K V) (p a : Ptr) :
    ((m.unlinkPrev p).heap a).next = (m.heap a).next := by
  rw [unlinkPrev]
  split
  · simp only [setPrev, Function.update_apply]
    split <;> simp_all
  · rfl

theorem unlinkNext_ends (m : TTLMap K V) (p : Ptr) :
    (m.unlinkNext p).head = (if (m.heap p).prev = none then (m.heap p).next else m.head) ∧
      (m.unlinkNext p).tail = m.tail := by
  rw [unlinkNext]
  cases (m.heap p).prev <;> simp [setNext]

theorem unlinkPrev_ends (m : TTLMap K V) (p : Ptr) :
    (m.unlinkPrev p).tail = (if (m.heap p).next = none then (m.heap p).prev else m.tail) ∧
      (m.unlinkPrev p).head = m.head := by
  rw [unlinkPrev]
  cases (m.heap p).next <;> simp [setPrev]

theorem removeNode_linked {m : TTLMap K V} {xs ys : List Ptr} {p : Ptr}
    (h : Linked m (xs ++ p :: ys)) : Linked (m.removeNode p) (xs ++ ys) := by
  have hrev : (xs ++ p :: ys).reverse = ys.reverse ++ p :: xs.reverse := by simp
  have hback := h.backward
  rw [hrev] at hback
  have hnodupRev : (ys.reverse ++ p :: xs.reverse).Nodup := hrev ▸ List.nodup_reverse.mpr h.nodup
  have hnext : (m.heap p).next = ys.head? := h.forward.next_eq
  have hprev : (m.heap p).prev = xs.getLast? := by
    rw [hback.next_eq, List.head?_reverse]
  -- A node is not its own predecessor, since the list has it once.
  have hself : (m.heap p).prev ≠ some p := by
    intro hp
    rw [hprev] at hp
    have hmem := List.mem_of_getLast? hp
    have hnodup := h.nodup
    rw [List.nodup_append] at hnodup
    exact hnodup.2.2 p hmem p List.mem_cons_self rfl
  -- The second `if` reads the node's links, which the first has left as they were.
  have hnext' : ((m.unlinkNext p).heap p).next = (m.heap p).next := by
    rw [unlinkNext_next, if_neg hself]
  have hprev' : ((m.unlinkNext p).heap p).prev = (m.heap p).prev := unlinkNext_prev m p p
  refine ⟨?_, ?_, ?_⟩
  · have hwalk := h.forward.unlink (f := fun a ↦ ((m.removeNode p).heap a).next) h.nodup
      (fun a ↦ by rw [removeNode, unlinkPrev_next, unlinkNext_next, hprev])
    rwa [← hprev, ← (unlinkNext_ends m p).1, ← (unlinkPrev_ends (m.unlinkNext p) p).2] at hwalk
  · have hwalk := hback.unlink (f := fun a ↦ ((m.removeNode p).heap a).prev) hnodupRev
      (fun a ↦ by
        rw [removeNode, unlinkPrev_prev, hnext', hprev', unlinkNext_prev, List.getLast?_reverse,
          hnext])
    rw [← List.reverse_append] at hwalk
    rwa [List.getLast?_reverse, ← hnext, ← hnext', ← hprev', ← (unlinkNext_ends m p).2,
      ← (unlinkPrev_ends (m.unlinkNext p) p).1] at hwalk
  · have hnodup := h.nodup
    rw [List.nodup_middle] at hnodup
    exact (List.nodup_cons.mp hnodup).2

/-! ## Putting a node in front -/

theorem addToFront_links (m : TTLMap K V) (p a : Ptr) (hp : m.head ≠ some p) :
    ((m.addToFront p).heap a).next = (if a = p then m.head else (m.heap a).next) ∧
    ((m.addToFront p).heap a).prev =
      (if a = p then none else if m.head = some a then some p else (m.heap a).prev) := by
  have hhead : ((m.setNext p m.head).setPrev p none).head = m.head := rfl
  simp only [addToFront, hhead]
  cases hm : m.head with
  | none =>
      by_cases ha : a = p
      · subst ha; simp [setNext, setPrev, hm]
      · simp [setNext, setPrev, ha]
  | some q =>
      have hqp : q ≠ p := fun h ↦ hp (by rw [hm, h])
      by_cases ha : a = p
      · subst ha; simp [setNext, setPrev, Ne.symm hqp]
      · by_cases haq : a = q
        · subst haq; simp [setNext, setPrev, ha]
        · simp [setNext, setPrev, ha, haq, Ne.symm haq]

theorem addToFront_ends (m : TTLMap K V) (p : Ptr) :
    (m.addToFront p).head = some p ∧
      (m.addToFront p).tail = (if m.tail = none then some p else m.tail) := by
  refine ⟨rfl, ?_⟩
  simp only [addToFront]
  split <;> rfl

theorem addToFront_linked {m : TTLMap K V} {l : List Ptr} {p : Ptr} (h : Linked m l)
    (hp : p ∉ l) : Linked (m.addToFront p) (p :: l) := by
  have hhead : m.head = l.head? := h.forward.head?_eq
  have hne : ∀ a ∈ l, a ≠ p := fun a ha heq ↦ hp (heq ▸ ha)
  have hlinks : ∀ a, _ := fun a ↦ addToFront_links m p a
    (fun heq ↦ hp (List.mem_of_head? (hhead ▸ heq)))
  refine ⟨⟨rfl, ?_⟩, ?_, List.nodup_cons.mpr ⟨hp, h.nodup⟩⟩
  · change Walk _ ((m.addToFront p).heap p).next l none
    rw [(hlinks p).1, if_pos rfl]
    exact h.forward.frame fun a ha ↦ by rw [(hlinks a).1, if_neg (hne a ha)]
  · have hwalk := h.backward.snoc (f := fun a ↦ ((m.addToFront p).heap a).prev) (p := p)
      (List.nodup_reverse.mpr h.nodup) (by simpa using hp)
      (by rw [(hlinks p).2, if_pos rfl])
      (fun a ha ↦ by
        rw [(hlinks a).2, if_neg (hne a (List.mem_reverse.mp ha)), List.getLast?_reverse, hhead])
    -- The code tests `tail` where the walk's lemma tests the list.
    have htail : l.reverse.getLast? = none ↔ m.tail = none := by
      rw [h.backward.head?_eq, List.getLast?_eq_none_iff, List.head?_eq_none_iff]
    rw [List.reverse_cons, (addToFront_ends m p).2]
    simpa only [htail] using hwalk

/-! ## Items and new nodes -/

/-- Storing an item under a known key leaves the list alone. -/
theorem setItem_links (m : TTLMap K V) (p : Ptr) (item : Item V) (q : Ptr) :
    ((m.setItem p item).heap q).key = (m.heap q).key ∧
      ((m.setItem p item).heap q).next = (m.heap q).next ∧
      ((m.setItem p item).heap q).prev = (m.heap q).prev := by
  simp only [setItem, Function.update_apply]
  split <;> simp_all

variable [DecidableEq K]

/-- `m'` has one more node than `m`, at the address that was the next to be used. -/
structure Allocates (m m' : TTLMap K V) (key : K) (item : Item V) : Prop where
  items : m'.items = m.items.insert key m.fresh
  fresh : m'.fresh = m.fresh + 1
  maxSize : m'.maxSize = m.maxSize
  newKey : (m'.heap m.fresh).key = key
  newItem : (m'.heap m.fresh).item = item
  oldKey : ∀ p, p ≠ m.fresh → (m'.heap p).key = (m.heap p).key
  oldItem : ∀ p, p ≠ m.fresh → (m'.heap p).item = (m.heap p).item

section InsertNew

variable {m m' : TTLMap K V} {key : K} {item : Item V}

theorem Allocates.lookup_self (h : Allocates m m' key item) :
    m'.items.lookup key = some m.fresh := by
  rw [h.items, AList.lookup_insert]

theorem Allocates.lookup_of_ne (h : Allocates m m' key item) {k : K} (hk : k ≠ key) :
    m'.items.lookup k = m.items.lookup k := by
  rw [h.items, AList.lookup_insert_ne hk]

variable (m) (key : K) (value : V) (deadline : Time)

theorem insertNew_allocates :
    Allocates m (m.insertNew key value deadline) key ⟨value, deadline⟩ := by
  -- `m₀` has the new node on the heap and not yet in the list
  let m₀ : TTLMap K V := { m with
    heap := Function.update m.heap m.fresh ⟨key, ⟨value, deadline⟩, none, none⟩
    fresh := m.fresh + 1 }
  have hsame : SameEntries m₀ (m₀.addToFront m.fresh) := addToFront_same m₀ m.fresh
  have hnew : m₀.heap m.fresh = ⟨key, ⟨value, deadline⟩, none, none⟩ := Function.update_self ..
  have hold (p : Ptr) (hp : p ≠ m.fresh) : m₀.heap p = m.heap p := Function.update_of_ne hp ..
  refine ⟨?_, hsame.fresh, hsame.maxSize, ?_, ?_, fun p hp ↦ ?_, fun p hp ↦ ?_⟩
  · change (m₀.addToFront m.fresh).items.insert key m.fresh = _
    rw [hsame.items]
  · exact (hsame.key m.fresh).trans (congrArg Node.key hnew)
  · exact (hsame.item m.fresh).trans (congrArg Node.item hnew)
  · exact (hsame.key p).trans (congrArg Node.key (hold p hp))
  · exact (hsame.item p).trans (congrArg Node.item (hold p hp))

theorem insertNew_linked {l : List Ptr} (h : Linked m l) (hl : ∀ p ∈ l, p ≠ m.fresh) :
    Linked (m.insertNew key value deadline) (m.fresh :: l) := by
  let m₀ : TTLMap K V := { m with
    heap := Function.update m.heap m.fresh ⟨key, ⟨value, deadline⟩, none, none⟩
    fresh := m.fresh + 1 }
  have hold (p : Ptr) (hp : p ∈ l) : m₀.heap p = m.heap p := Function.update_of_ne (hl p hp) ..
  have hlinked₀ : Linked m₀ l := by
    refine ⟨h.forward.frame fun a ha ↦ ?_, h.backward.frame fun a ha ↦ ?_, h.nodup⟩
    · rw [hold a ha]
    · rw [hold a (List.mem_reverse.mp ha)]
  have hlinked := addToFront_linked hlinked₀ fun hmem ↦ hl _ hmem rfl
  exact ⟨hlinked.forward, hlinked.backward, hlinked.nodup⟩

end InsertNew

end TTLMap

end CommonLib.XTTLMap
