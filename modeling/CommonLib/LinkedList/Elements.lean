import CommonLib.LinkedList.List

/-! What the operations of the list make of the elements it holds. -/

namespace CommonLib.LinkedList

open Reasoning

variable {V : Type} {l l' : LinkedList V} {e : Ref} {es es' xs ys : List Ref}

/-- The elements that a loop over the list passes, up to `fuel` of them. -/
def elementsFrom (l : LinkedList V) : Nat → Option Ref → List Ref
  | fuel + 1, some e => e :: l.elementsFrom fuel (l.next e)
  | _, _ => []

def elements (l : LinkedList V) : List Ref := l.elementsFrom l.len.toNat l.front

abbrev InRing (l : LinkedList V) (es : List Ref) : Prop :=
  Ring (fun e ↦ (l.heap e).next) (fun e ↦ (l.heap e).prev) root es

structure Holds (l : LinkedList V) (es : List Ref) : Prop where
  ring : l.InRing es
  nodup : (root :: es).Nodup
  list : ∀ e, (l.heap e).list = true ↔ e ∈ es
  lt_fresh : ∀ e ∈ root :: es, e < l.fresh
  len : l.len = es.length

/-- `l'` differs from `l` in its links only. -/
structure Relinked (l l' : LinkedList V) : Prop where
  list : ∀ e, (l'.heap e).list = (l.heap e).list
  value : ∀ e, (l'.heap e).value = (l.heap e).value
  fresh : l'.fresh = l.fresh
  len : l'.len = l.len

theorem Relinked.refl (l : LinkedList V) : Relinked l l := ⟨fun _ ↦ rfl, fun _ ↦ rfl, rfl, rfl⟩

theorem Relinked.trans {l'' : LinkedList V} (h : Relinked l l') (h' : Relinked l' l'') :
    Relinked l l'' :=
  ⟨fun e ↦ (h'.list e).trans (h.list e), fun e ↦ (h'.value e).trans (h.value e),
    h'.fresh.trans h.fresh, h'.len.trans h.len⟩

theorem modify_heap (e p : Ref) (change : Element V → Element V) :
    (l.modify e change).heap p = if p = e then change (l.heap e) else l.heap p :=
  Function.update_apply ..

theorem relinked_modify (e : Ref) {change : Element V → Element V}
    (hlist : ∀ element, (change element).list = element.list)
    (hvalue : ∀ element, (change element).value = element.value) :
    Relinked l (l.modify e change) := by
  refine ⟨fun p ↦ ?_, fun p ↦ ?_, rfl, rfl⟩
  · rw [modify_heap]
    split_ifs with hp
    · rw [hlist, hp]
    · rfl
  · rw [modify_heap]
    split_ifs with hp
    · rw [hvalue, hp]
    · rfl

theorem setNext_some {p : Ref} {q : Option Ref} (l : LinkedList V) :
    ∃ l', l.setNext (some p) q = .ok l' ∧ Relinked l l' ∧
      (∀ a, (l'.heap a).next = if a = p then q else (l.heap a).next) ∧
      ∀ a, (l'.heap a).prev = (l.heap a).prev := by
  refine ⟨_, rfl, relinked_modify _ (fun _ ↦ rfl) fun _ ↦ rfl, fun a ↦ ?_, fun a ↦ ?_⟩
  · rw [modify_heap]
    split_ifs <;> rfl
  · rw [modify_heap]
    split_ifs with ha
    · rw [ha]
    · rfl

theorem setPrev_some {p : Ref} {q : Option Ref} (l : LinkedList V) :
    ∃ l', l.setPrev (some p) q = .ok l' ∧ Relinked l l' ∧
      (∀ a, (l'.heap a).prev = if a = p then q else (l.heap a).prev) ∧
      ∀ a, (l'.heap a).next = (l.heap a).next := by
  refine ⟨_, rfl, relinked_modify _ (fun _ ↦ rfl) fun _ ↦ rfl, fun a ↦ ?_, fun a ↦ ?_⟩
  · rw [modify_heap]
    split_ifs <;> rfl
  · rw [modify_heap]
    split_ifs with ha
    · rw [ha]
    · rfl

/-! ## Taking an element out of the ring and putting it in -/

theorem lastOr_ne (hnodup : (root :: (xs ++ e :: ys)).Nodup) : lastOr root xs ≠ e := by
  rintro rfl
  rw [← List.cons_append, List.nodup_append] at hnodup
  exact hnodup.2.2 _ (lastOr_mem root xs) _ List.mem_cons_self rfl

theorem headOr_ne (hnodup : (root :: (xs ++ e :: ys)).Nodup) : headOr root ys ≠ e := by
  rintro rfl
  simp only [List.nodup_cons, List.nodup_append, List.mem_append, List.mem_cons] at hnodup
  have hmem := headOr_mem root ys
  simp only [List.mem_append, List.mem_singleton] at hmem
  grind

theorem unlink_ring (h : l.InRing (xs ++ e :: ys)) (hnodup : (root :: (xs ++ e :: ys)).Nodup) :
    ∃ l', l.unlink e = .ok l' ∧ l'.InRing (xs ++ ys) ∧ Relinked l l' := by
  obtain ⟨hxs, hys, ⟨-, hprev⟩, hnext, -⟩ := (ring_middle xs ys e).mp h
  have hne := lastOr_ne hnodup
  obtain ⟨l₁, hl₁, hsame₁, hnext₁, hprev₁⟩ :=
    setNext_some (p := lastOr root xs) (q := some (headOr root ys)) l
  obtain ⟨l₂, hl₂, hsame₂, hprev₂, hnext₂⟩ :=
    setPrev_some (p := headOr root ys) (q := some (lastOr root xs)) l₁
  refine ⟨l₂, ?_, ?_, hsame₁.trans hsame₂⟩
  · rw [unlink, hprev, hnext, hl₁]
    change l₁.setPrev (l₁.heap e).next (l₁.heap e).prev = _
    rw [hnext₁, if_neg hne.symm, hnext, hprev₁, hprev, hl₂]
  · have hsub : (root :: (xs ++ ys)).Nodup := hnodup.sublist (by simp)
    obtain ⟨hxs', hys'⟩ := DoublyLinked.halves hsub
      (f := fun a ↦ (l₂.heap a).next) (g := fun a ↦ (l₂.heap a).prev)
      (fun a _ ha ↦ by rw [hnext₂, hnext₁, if_neg ha])
      (fun a _ ha ↦ by rw [hprev₂, if_neg ha, hprev₁]) hxs hys
    refine (ring_append xs ys).mpr ⟨hxs', hys', ?_, ?_⟩
    · rw [hnext₂, hnext₁, if_pos rfl]
    · rw [hprev₂, if_pos rfl]

theorem link_ring (xs ys : List Ref) (h : l.InRing (xs ++ ys))
    (hnodup : (root :: (xs ++ e :: ys)).Nodup) :
    ∃ l', l.link e (lastOr root xs) = .ok l' ∧ l'.InRing (xs ++ e :: ys) ∧ Relinked l l' := by
  obtain ⟨hxs, hys, hnext, -⟩ := (ring_append _ _).mp h
  have hlast := lastOr_ne hnodup
  have hhead := headOr_ne hnodup
  -- `e` points to its neighbours before they point to it
  let l₁ := l.modify e fun element ↦ { element with prev := some (lastOr root xs) }
  let l₂ := l₁.modify e fun element ↦ { element with next := some (headOr root ys) }
  have hsame₁ : Relinked l l₁ := relinked_modify e (fun _ ↦ rfl) fun _ ↦ rfl
  have hsame₂ : Relinked l₁ l₂ := relinked_modify e (fun _ ↦ rfl) fun _ ↦ rfl
  have hl₂ (a : Ref) (ha : a ≠ e) : l₂.heap a = l.heap a := by
    rw [modify_heap, if_neg ha, modify_heap, if_neg ha]
  have hself : l₂.heap e = { l.heap e with prev := some (lastOr root xs),
                                           next := some (headOr root ys) } := by
    rw [modify_heap, if_pos rfl, modify_heap, if_pos rfl]
  obtain ⟨l₃, hl₃, hsame₃, hnext₃, hprev₃⟩ := setNext_some (p := lastOr root xs) (q := some e) l₂
  obtain ⟨l₄, hl₄, hsame₄, hprev₄, hnext₄⟩ := setPrev_some (p := headOr root ys) (q := some e) l₃
  refine ⟨l₄, ?_, ?_, ((hsame₁.trans hsame₂).trans hsame₃).trans hsame₄⟩
  · have hread : (l₁.heap (lastOr root xs)).next = some (headOr root ys) := by
      rw [modify_heap, if_neg hlast, hnext]
    change ((l₁.modify e fun element ↦ { element with next := (l₁.heap (lastOr root xs)).next
      }).setNext _ (some e) >>= fun l ↦ l.setPrev (l.heap e).next (some e)) = _
    rw [hread]
    change (l₂.setNext (l₂.heap e).prev (some e) >>= _) = _
    rw [hself, hl₃]
    change l₃.setPrev (l₃.heap e).next (some e) = _
    rw [hnext₃, if_neg hlast.symm, hself, hl₄]
  · have hsub : (root :: (xs ++ ys)).Nodup := hnodup.sublist (by simp)
    have hother : ∀ a ∈ root :: (xs ++ ys), a ≠ e := by
      rintro a ha rfl
      simp only [List.nodup_cons, List.nodup_append, List.mem_append, List.mem_cons] at hnodup ha
      grind
    obtain ⟨hxs', hys'⟩ := DoublyLinked.halves hsub
      (f := fun a ↦ (l₄.heap a).next) (g := fun a ↦ (l₄.heap a).prev)
      (fun a hmem ha ↦ by rw [hnext₄, hnext₃, if_neg ha, hl₂ a (hother a hmem)])
      (fun a hmem ha ↦ by rw [hprev₄, if_neg ha, hprev₃, hl₂ a (hother a hmem)]) hxs hys
    refine (ring_middle xs ys e).mpr ⟨hxs', hys', ⟨?_, ?_⟩, ?_, ?_⟩
    · rw [hnext₄, hnext₃, if_pos rfl]
    · rw [hprev₄, if_neg hhead.symm, hprev₃, hself]
    · rw [hnext₄, hnext₃, if_neg hlast.symm, hself]
    · rw [hprev₄, if_pos rfl]

/-! ## Reading the list -/

theorem holds_new [Inhabited V] : Holds (new : LinkedList V) [] where
  ring := .cons_cons ⟨rfl, rfl⟩ (.singleton _)
  nodup := List.nodup_singleton root
  list e := by
    simp only [new, init, modify_heap, List.not_mem_nil, iff_false, Bool.not_eq_true]
    split_ifs <;> rfl
  lt_fresh e he := by
    rw [List.mem_singleton.mp he]
    exact Nat.zero_lt_one
  len := rfl

namespace Holds

theorem front_eq (h : Holds l es) : l.front = es.head? := by
  rw [front, h.len]
  cases es with
  | nil => rfl
  | cons e es =>
      have hnext := ((ring_middle [] _ _).mp h.ring).2.2.1.1
      rw [if_neg (by simp; omega)]
      exact hnext

theorem next_eq (h : Holds l (xs ++ e :: ys)) : l.next e = ys.head? := by
  have hnext := ((ring_middle xs ys e).mp h.ring).2.2.2.1
  have hlist : (l.heap e).list = true := (h.list e).mpr (by simp)
  rw [next, hlist, hnext]
  cases ys with
  | nil => simp [headOr]
  | cons b ys =>
      have hb : b ≠ root := by
        rintro rfl
        exact (List.nodup_cons.mp h.nodup).1 (by simp)
      simp [headOr, hb]

theorem searchFrom_eq (xs ys : List Ref) (h : Holds l (xs ++ ys)) (p : V → Bool) (fuel : Nat)
    (hfuel : ys.length ≤ fuel) :
    l.searchFrom p fuel ys.head? = .ok (ys.find? fun e ↦ p (l.heap e).value) := by
  induction ys generalizing xs fuel with
  | nil => cases fuel <;> rfl
  | cons e ys ih =>
      obtain _ | fuel := fuel
      · cases hfuel
      · rw [List.head?_cons, searchFrom, h.next_eq, List.find?_cons]
        cases p (l.heap e).value with
        | true => rfl
        | false =>
            rw [List.append_cons] at h
            exact ih _ h fuel (Nat.le_of_succ_le_succ hfuel)

theorem search_eq (h : Holds l es) (p : V → Bool) :
    l.search p = .ok (es.find? fun e ↦ p (l.heap e).value) := by
  rw [search, h.front_eq]
  exact searchFrom_eq [] es h p _ (by simp [h.len])

theorem elementsFrom_eq (xs ys : List Ref) (h : Holds l (xs ++ ys)) (fuel : Nat)
    (hfuel : ys.length ≤ fuel) : l.elementsFrom fuel ys.head? = ys := by
  induction ys generalizing xs fuel with
  | nil => cases fuel <;> rfl
  | cons e ys ih =>
      obtain _ | fuel := fuel
      · cases hfuel
      · rw [List.head?_cons, elementsFrom, h.next_eq]
        rw [List.append_cons] at h
        rw [ih _ h fuel (Nat.le_of_succ_le_succ hfuel)]

theorem elements_eq (h : Holds l es) : l.elements = es := by
  rw [elements, h.front_eq]
  exact elementsFrom_eq [] es h _ (by simp [h.len])

/-! ## Changing the list -/

theorem of_relinked (h : Holds l es) (hsame : Relinked l l') (hring : l'.InRing es')
    (hperm : es'.Perm es) : Holds l' es' where
  ring := hring
  nodup := (hperm.cons root).nodup_iff.mpr h.nodup
  list e := by rw [hsame.list, h.list, hperm.mem_iff]
  lt_fresh e he := by
    rw [hsame.fresh]
    exact h.lt_fresh e ((hperm.cons root).mem_iff.mp he)
  len := by rw [hsame.len, h.len, hperm.length_eq]

/-- An element that has been removed is left where it is, outside the list. -/
theorem moveToFront (h : Holds l es) (e : Ref) :
    ∃ l', l.moveToFront e = .ok l' ∧ Relinked l l' ∧
      Holds l' (if e ∈ es then e :: es.erase e else es) := by
  by_cases hmem : e ∈ es
  · rw [if_pos hmem]
    obtain ⟨xs, ys, -, rfl, herase⟩ := List.exists_erase_eq hmem
    rw [herase]
    have hlist : (l.heap e).list = true := (h.list e).mpr hmem
    cases xs with
    | nil =>
        have hfirst : (l.heap root).next = some e := ((ring_middle [] _ _).mp h.ring).2.2.1.1
        exact ⟨l, by rw [LinkedList.moveToFront, if_pos (.inr hfirst)], .refl l, h⟩
    | cons x xs =>
        have hfirst : (l.heap root).next = some x := ((ring_middle [] _ _).mp h.ring).2.2.1.1
        have hx : x ≠ e := by
          rintro rfl
          simpa using h.nodup
        have he : e ≠ root := by
          rintro rfl
          exact (List.nodup_cons.mp h.nodup).1 hmem
        obtain ⟨l₁, hl₁, hring₁, hsame₁⟩ := unlink_ring h.ring h.nodup
        have hperm : (e :: (x :: xs ++ ys)).Perm (x :: xs ++ e :: ys) := List.perm_middle.symm
        obtain ⟨l₂, hl₂, hring₂, hsame₂⟩ := link_ring [] _ hring₁
          ((hperm.cons root).nodup_iff.mpr h.nodup)
        refine ⟨l₂, ?_, hsame₁.trans hsame₂, h.of_relinked (hsame₁.trans hsame₂) hring₂ hperm⟩
        rw [LinkedList.moveToFront, if_neg (by simp [hlist, hfirst, hx]), move, if_neg he, hl₁]
        exact hl₂
  · rw [if_neg hmem]
    have hlist : (l.heap e).list = false := Bool.eq_false_iff.mpr ((h.list e).not.mpr hmem)
    exact ⟨l, by rw [LinkedList.moveToFront, if_pos (.inl hlist)], .refl l, h⟩

theorem remove (h : Holds l es) (he : e ∈ es) :
    ∃ l', l.Remove e = .ok ((l.heap e).value, l') ∧ Holds l' (es.erase e) ∧
      l'.fresh = l.fresh ∧ ∀ a, (l'.heap a).value = (l.heap a).value := by
  have hlist : (l.heap e).list = true := (h.list e).mpr he
  obtain ⟨xs, ys, -, rfl, herase⟩ := List.exists_erase_eq he
  obtain ⟨hnotin, hnodup⟩ := List.nodup_cons.mp
    ((List.perm_middle.cons root).trans (List.Perm.swap ..) |>.nodup_iff.mp h.nodup)
  obtain ⟨l₁, hl₁, hring₁, hsame₁⟩ := unlink_ring h.ring h.nodup
  let l₂ := l₁.modify e fun element ↦ { element with next := none, prev := none, list := false }
  have hother (a : Ref) (ha : a ≠ e) : l₂.heap a = l₁.heap a := by rw [modify_heap, if_neg ha]
  have hself : l₂.heap e = ⟨none, none, false, (l.heap e).value⟩ := by
    rw [modify_heap, if_pos rfl, hsame₁.value]
  have hvalue (a : Ref) : (l₂.heap a).value = (l.heap a).value := by
    by_cases ha : a = e
    · rw [ha, hself]
    · rw [hother a ha, hsame₁.value]
  rw [herase]
  refine ⟨{ l₂ with len := l₂.len - 1 }, ?_, ⟨?_, hnodup, fun a ↦ ?_, fun a ha ↦ ?_, ?_⟩,
    hsame₁.fresh, hvalue⟩
  · rw [LinkedList.Remove, if_pos hlist, LinkedList.remove, hl₁]
    change Except.ok ((l₂.heap e).value, _) = _
    rw [hself]
  · have hne : ∀ a ∈ root :: (xs ++ ys), a ≠ e := fun a ha heq ↦ hnotin (heq ▸ ha)
    exact hring₁.frame (fun a ha ↦ by rw [hother a (hne a ha)])
      fun a ha ↦ by rw [hother a (hne a ha)]
  · change (l₂.heap a).list = true ↔ _
    by_cases ha : a = e
    · subst ha
      rw [hself]
      exact iff_of_false Bool.false_ne_true fun hmem ↦ hnotin (List.mem_cons_of_mem root hmem)
    · rw [hother a ha, hsame₁.list, h.list]
      simp [ha]
  · change a < l₁.fresh
    rw [hsame₁.fresh]
    apply h.lt_fresh
    simp only [List.mem_cons, List.mem_append] at ha ⊢
    tauto
  · change l₁.len - 1 = _
    rw [hsame₁.len, h.len]
    simp only [List.length_append, List.length_cons]
    omega

theorem alloc_heap (v : V) (a : Ref) :
    (l.alloc v).heap a = if a = l.fresh then ⟨none, none, false, v⟩ else l.heap a :=
  Function.update_apply ..

/-- The new element is on the heap and not yet in the list. -/
theorem alloc (h : Holds l es) (v : V) : Holds (l.alloc v) es := by
  have hne : ∀ a ∈ root :: es, a ≠ l.fresh := fun a ha ↦ (h.lt_fresh a ha).ne
  refine ⟨h.ring.frame (fun a ha ↦ ?_) fun a ha ↦ ?_, h.nodup, fun a ↦ ?_, fun a ha ↦ ?_, h.len⟩
  · rw [alloc_heap, if_neg (hne a ha)]
  · rw [alloc_heap, if_neg (hne a ha)]
  · rw [alloc_heap]
    split_ifs with ha
    · exact iff_of_false not_false fun hmem ↦ hne a (List.mem_cons_of_mem root hmem) ha
    · exact h.list a
  · exact (h.lt_fresh a ha).trans (Nat.lt_succ_self _)

theorem insert_back (h : Holds l es) (he : e ∉ root :: es) (hlt : e < l.fresh) :
    ∃ l', l.insert e (lastOr root es) = .ok l' ∧ Holds l' (es ++ [e]) ∧ l'.fresh = l.fresh ∧
      ∀ a, (l'.heap a).value = (l.heap a).value := by
  have hperm : (root :: (es ++ [e])).Perm (e :: root :: es) :=
    List.perm_append_singleton e (root :: es)
  have hnodup := hperm.nodup_iff.mpr (List.nodup_cons.mpr ⟨he, h.nodup⟩)
  have hring := h.ring
  rw [← List.append_nil es] at hring
  obtain ⟨l₁, hl₁, hring₁, hsame₁⟩ := link_ring es [] hring hnodup
  let l₂ := l₁.modify e fun element ↦ { element with list := true }
  have hself : l₂.heap e = { l₁.heap e with list := true } := by rw [modify_heap, if_pos rfl]
  have hother (a : Ref) (ha : a ≠ e) : l₂.heap a = l₁.heap a := by rw [modify_heap, if_neg ha]
  -- only the flag of `e` differs from the list that `link` has left
  have hlinks (a : Ref) : (l₂.heap a).next = (l₁.heap a).next ∧
      (l₂.heap a).prev = (l₁.heap a).prev ∧ (l₂.heap a).value = (l₁.heap a).value := by
    by_cases ha : a = e
    · rw [ha, hself]
      exact ⟨rfl, rfl, rfl⟩
    · rw [hother a ha]
      exact ⟨rfl, rfl, rfl⟩
  refine ⟨{ l₂ with len := l₂.len + 1 }, ?_, ⟨?_, hnodup, fun a ↦ ?_, fun a ha ↦ ?_, ?_⟩,
    hsame₁.fresh, fun a ↦ (hlinks a).2.2.trans (hsame₁.value a)⟩
  · rw [LinkedList.insert, hl₁]
    rfl
  · exact hring₁.frame (fun a _ ↦ (hlinks a).1) fun a _ ↦ (hlinks a).2.1
  · change (l₂.heap a).list = true ↔ _
    by_cases ha : a = e
    · rw [ha, hself]
      simp
    · rw [hother a ha, hsame₁.list, h.list]
      simp [ha]
  · change a < l₁.fresh
    rw [hsame₁.fresh]
    rcases List.mem_cons.mp (hperm.mem_iff.mp ha) with rfl | hmem
    · exact hlt
    · exact h.lt_fresh a hmem
  · change l₁.len + 1 = _
    rw [hsame₁.len, h.len]
    simp

theorem pushBack (h : Holds l es) (v : V) :
    ∃ l', l.pushBack v = .ok (l.fresh, l') ∧ Holds l' (es ++ [l.fresh]) ∧
      l'.fresh = l.fresh + 1 ∧ (l'.heap l.fresh).value = v ∧
      ∀ a, a ≠ l.fresh → (l'.heap a).value = (l.heap a).value := by
  have hlazy : l.lazyInit = l := by
    have hnext := ((ring_append [] es).mp h.ring).2.2.1
    rw [lazyInit, if_neg]
    intro hnone
    cases hnext.symm.trans hnone
  have hback : (l.heap root).prev = some (lastOr root es) := by
    have hring := h.ring
    rw [← List.append_nil es] at hring
    exact ((ring_append _ _).mp hring).2.2.2
  obtain ⟨l', hl', hholds, hfresh, hvalue⟩ := (h.alloc v).insert_back
    (fun hmem ↦ (h.lt_fresh _ hmem).false) (Nat.lt_succ_self l.fresh)
  refine ⟨l', ?_, hholds, hfresh, ?_, fun a ha ↦ ?_⟩
  · rw [LinkedList.pushBack, hlazy, hback]
    change l.insertValue v (lastOr root es) = _
    rw [insertValue, hl']
    rfl
  · rw [hvalue, alloc_heap, if_pos rfl]
  · rw [hvalue, alloc_heap, if_neg ha]

theorem setValue_heap (e a : Ref) (v : V) :
    (l.setValue e v).heap a = { l.heap a with value := if a = e then v else (l.heap a).value } := by
  rw [LinkedList.setValue, modify_heap]
  split_ifs with ha
  · rw [ha]
  · rfl

theorem setValue (h : Holds l es) (e : Ref) (v : V) : Holds (l.setValue e v) es where
  ring := h.ring.frame (fun a _ ↦ by rw [setValue_heap]) fun a _ ↦ by rw [setValue_heap]
  nodup := h.nodup
  list a := by rw [setValue_heap, h.list]
  lt_fresh := h.lt_fresh
  len := h.len

end Holds

end CommonLib.LinkedList
