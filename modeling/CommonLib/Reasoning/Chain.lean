import Mathlib

/-!
# Pointer chains

`Walk next o l o'` says that following `next` from `o` passes the nodes `l` in order and ends at
`o'`.  A doubly linked list is a walk by `next` and the walk by `prev` over the reversed nodes; the
lemmas here say what unlinking a node and putting one in front do to a walk, so that each serves
both directions.
-/

namespace CommonLib.Reasoning

variable {P : Type*} {next f : P → Option P}

def Walk (next : P → Option P) : Option P → List P → Option P → Prop
  | o, [], o' => o = o'
  | o, a :: l, o' => o = some a ∧ Walk next (next a) l o'

theorem walk_append {o o' : Option P} {xs ys : List P} :
    Walk next o (xs ++ ys) o' ↔ ∃ m, Walk next o xs m ∧ Walk next m ys o' := by
  induction xs generalizing o with
  | nil => simp [Walk]
  | cons a xs ih => simp only [List.cons_append, Walk, ih, exists_and_left, and_assoc]

theorem Walk.head?_eq {o : Option P} {l : List P} (h : Walk next o l none) : o = l.head? := by
  cases l with
  | nil => exact h
  | cons a l => exact h.1

/-- A walk depends only on the links of the nodes it passes. -/
theorem Walk.frame {o o' : Option P} {l : List P} (h : Walk next o l o')
    (heq : ∀ a ∈ l, f a = next a) : Walk f o l o' := by
  induction l generalizing o with
  | nil => exact h
  | cons a l ih =>
      refine ⟨h.1, ?_⟩
      rw [heq a List.mem_cons_self]
      exact ih h.2 fun b hb ↦ heq b (List.mem_cons_of_mem a hb)

theorem Walk.next_eq {o : Option P} {xs ys : List P} {p : P}
    (h : Walk next o (xs ++ p :: ys) none) : next p = ys.head? := by
  obtain ⟨m, -, -, hrest⟩ := walk_append.mp h
  exact hrest.head?_eq

/-- Unlinking `p`: its predecessor, if there is one, now points past it. -/
theorem Walk.unlink [DecidableEq P] {o : Option P} {xs ys : List P} {p : P}
    (h : Walk next o (xs ++ p :: ys) none) (hnodup : (xs ++ p :: ys).Nodup)
    (heq : ∀ a, f a = if xs.getLast? = some a then next p else next a) :
    Walk f (if xs.getLast? = none then next p else o) (xs ++ ys) none := by
  have hsame : ∀ a, xs.getLast? ≠ some a → f a = next a := fun a ha ↦ by rw [heq, if_neg ha]
  rcases List.eq_nil_or_concat xs with rfl | ⟨init, a, rfl⟩
  · -- `p` is the first node: the walk now starts behind it.
    have hrest : Walk next (next p) ys none := h.2
    exact hrest.frame fun b _ ↦ hsame b (by simp)
  · obtain ⟨m, hinit, hm, hys⟩ := walk_append.mp h
    rw [List.concat_eq_append] at hinit
    obtain ⟨m', hinit', hm', -⟩ := walk_append.mp hinit
    simp only [List.concat_eq_append, List.append_assoc, List.cons_append, List.nil_append]
      at hnodup hsame heq ⊢
    have hlast : (init ++ [a]).getLast? = some a := by simp
    -- `a` occurs once, so its changed link is not used before or after it.
    have hnotin : a ∉ init ∧ a ∉ ys := by
      rw [List.nodup_append] at hnodup
      obtain ⟨-, htail, hdisj⟩ := hnodup
      rw [List.nodup_cons] at htail
      exact ⟨fun hmem ↦ hdisj a hmem a List.mem_cons_self rfl,
        fun hmem ↦ htail.1 (List.mem_cons_of_mem p hmem)⟩
    rw [if_neg (by simp)]
    refine walk_append.mpr ⟨some a, ?_, rfl, ?_⟩
    · rw [← hm']
      exact hinit'.frame fun b hb ↦ hsame b (by
        rw [hlast]
        rintro ⟨⟩
        exact hnotin.1 hb)
    · rw [heq a, if_pos hlast]
      exact hys.frame fun b hb ↦ hsame b (by
        rw [hlast]
        rintro ⟨⟩
        exact hnotin.2 hb)

/-- Putting `p` at the end of a walk: the last node, if there is one, now points to `p`. -/
theorem Walk.snoc [DecidableEq P] {o : Option P} {xs : List P} {p : P}
    (h : Walk next o xs none) (hnodup : xs.Nodup) (hp : p ∉ xs) (hend : f p = none)
    (heq : ∀ a ∈ xs, f a = if xs.getLast? = some a then some p else next a) :
    Walk f (if xs.getLast? = none then some p else o) (xs ++ [p]) none := by
  rcases List.eq_nil_or_concat xs with rfl | ⟨init, a, rfl⟩
  · -- There was no node: the walk is `p` alone.
    exact ⟨rfl, hend⟩
  · rw [List.concat_eq_append] at h hnodup heq ⊢
    have hlast : (init ++ [a]).getLast? = some a := by simp
    obtain ⟨m, hinit, hm, -⟩ := walk_append.mp h
    have hnotin : a ∉ init := by
      rw [List.nodup_append] at hnodup
      exact fun hmem ↦ hnodup.2.2 a hmem a List.mem_cons_self rfl
    rw [if_neg (by simp), List.append_assoc]
    refine walk_append.mpr ⟨some a, ?_, rfl, ?_⟩
    · rw [← hm]
      refine hinit.frame fun b hb ↦ ?_
      rw [heq b (List.mem_append_left _ hb), hlast, if_neg]
      rintro ⟨⟩
      exact hnotin hb
    · rw [heq a (by simp), if_pos hlast]
      exact ⟨rfl, hend⟩

/-! ## Rings -/

/-- Each node of `l` and the one behind it point to each other. -/
def DoublyLinked (next prev : P → Option P) (l : List P) : Prop :=
  l.IsChain fun a b ↦ next a = some b ∧ prev b = some a

/-- The nodes `l` and the node `r`, from which they start and at which they end. -/
def Ring (next prev : P → Option P) (r : P) (l : List P) : Prop :=
  DoublyLinked next prev (r :: l ++ [r])

/-- The node that the ring through `r` has before what comes behind `xs`. -/
def lastOr (r : P) (xs : List P) : P := xs.getLast?.getD r

/-- The node that the ring through `r` has behind what comes before `ys`. -/
def headOr (r : P) (ys : List P) : P := ys.head?.getD r

section Ring

variable {prev g : P → Option P} {r : P} {xs ys l : List P}

theorem getLast?_cons_eq_lastOr : (r :: xs).getLast? = some (lastOr r xs) := List.getLast?_cons

theorem head?_concat_eq_headOr : (ys ++ [r]).head? = some (headOr r ys) := by
  cases ys <;> rfl

theorem lastOr_mem (r : P) (xs : List P) : lastOr r xs ∈ r :: xs :=
  List.mem_of_getLast? getLast?_cons_eq_lastOr

theorem headOr_mem (r : P) (ys : List P) : headOr r ys ∈ ys ++ [r] :=
  List.mem_of_head? head?_concat_eq_headOr

theorem ring_append (xs ys : List P) :
    Ring next prev r (xs ++ ys) ↔ DoublyLinked next prev (r :: xs) ∧
      DoublyLinked next prev (ys ++ [r]) ∧
      next (lastOr r xs) = some (headOr r ys) ∧ prev (headOr r ys) = some (lastOr r xs) := by
  have hclosed : r :: (xs ++ ys) ++ [r] = (r :: xs) ++ (ys ++ [r]) := by simp
  rw [Ring, hclosed, DoublyLinked, List.isChain_append, getLast?_cons_eq_lastOr,
    head?_concat_eq_headOr]
  simp [DoublyLinked]

theorem ring_middle (xs ys : List P) (e : P) :
    Ring next prev r (xs ++ e :: ys) ↔ DoublyLinked next prev (r :: xs) ∧
      DoublyLinked next prev (ys ++ [r]) ∧
      (next (lastOr r xs) = some e ∧ prev e = some (lastOr r xs)) ∧
      (next e = some (headOr r ys) ∧ prev (headOr r ys) = some e) := by
  have htail : DoublyLinked next prev (e :: ys ++ [r]) ↔
      (next e = some (headOr r ys) ∧ prev (headOr r ys) = some e) ∧
        DoublyLinked next prev (ys ++ [r]) := by
    rw [List.cons_append, DoublyLinked, List.isChain_cons, head?_concat_eq_headOr]
    simp [DoublyLinked]
  rw [ring_append, htail]
  change _ ∧ _ ∧ next (lastOr r xs) = some e ∧ prev e = some (lastOr r xs) ↔ _
  tauto

/-- What comes before a node does not depend on where it points to, nor on what points to the
first. -/
theorem DoublyLinked.frame (h : DoublyLinked next prev l) (hf : ∀ a ∈ l.dropLast, f a = next a)
    (hg : ∀ a ∈ l.tail, g a = prev a) : DoublyLinked f g l := by
  induction l using List.twoStepInduction with
  | nil => exact .nil
  | singleton a => exact .singleton a
  | cons_cons a b l _ ih =>
      obtain ⟨hlink, hrest⟩ := List.isChain_cons_cons.mp h
      refine List.isChain_cons_cons.mpr ⟨?_, ih b hrest (fun c hc ↦ ?_) fun c hc ↦ ?_⟩
      · rw [hf a (by simp), hg b (by simp)]
        exact hlink
      · exact hf c (by simp [hc])
      · exact hg c (List.mem_of_mem_tail hc)

theorem Ring.frame (h : Ring next prev r l) (hf : ∀ a ∈ r :: l, f a = next a)
    (hg : ∀ a ∈ r :: l, g a = prev a) : Ring f g r l := by
  refine DoublyLinked.frame h (fun a ha ↦ hf a ?_) fun a ha ↦ hg a ?_
  · rwa [List.dropLast_concat] at ha
  · simp only [List.cons_append, List.tail_cons, List.mem_append, List.mem_singleton] at ha
    exact List.mem_cons.mpr ha.symm

/-- The two halves of a ring stay linked when the place between them changes. -/
theorem DoublyLinked.halves (hnodup : (r :: (xs ++ ys)).Nodup)
    (hf : ∀ a ∈ r :: (xs ++ ys), a ≠ lastOr r xs → f a = next a)
    (hg : ∀ a ∈ r :: (xs ++ ys), a ≠ headOr r ys → g a = prev a)
    (hxs : DoublyLinked next prev (r :: xs)) (hys : DoublyLinked next prev (ys ++ [r])) :
    DoublyLinked f g (r :: xs) ∧ DoublyLinked f g (ys ++ [r]) := by
  have hfirst : (r :: xs).Nodup := hnodup.sublist (by simp)
  have hsecond : (ys ++ [r]).Nodup := by
    have hsub : (r :: ys).Nodup := hnodup.sublist (by simp)
    exact (List.perm_append_singleton r ys).nodup_iff.mpr hsub
  have hapart : ∀ a ∈ r :: xs, a ∉ ys := by
    rw [← List.cons_append, List.nodup_append] at hnodup
    exact fun a ha hmem ↦ hnodup.2.2 a ha a hmem rfl
  constructor
  · refine hxs.frame (fun a ha ↦ hf a ?_ ?_) fun a ha ↦ hg a ?_ ?_
    · have hmem := List.mem_of_mem_dropLast ha
      simp only [List.mem_cons, List.mem_append] at hmem ⊢
      tauto
    · rintro rfl
      have hsplit := List.dropLast_append_getLast? _ getLast?_cons_eq_lastOr (l := r :: xs)
      rw [← hsplit, List.nodup_append] at hfirst
      exact hfirst.2.2 _ ha _ List.mem_cons_self rfl
    · exact List.mem_cons_of_mem r (List.mem_append_left ys ha)
    · rintro rfl
      rcases List.mem_append.mp (headOr_mem r ys) with hmem | hmem
      · exact hapart _ (List.mem_cons_of_mem r ha) hmem
      · rw [List.mem_singleton] at hmem
        rw [hmem] at ha
        exact (List.nodup_cons.mp hfirst).1 ha
  · rw [← List.cons_head?_tail head?_concat_eq_headOr] at hsecond
    refine hys.frame (fun a ha ↦ ?_) fun a ha ↦ hg a ?_ ?_
    · rw [List.dropLast_concat] at ha
      refine hf a (List.mem_cons_of_mem r (List.mem_append_right xs ha)) ?_
      rintro rfl
      exact hapart _ (lastOr_mem r xs) ha
    · have hmem := List.mem_of_mem_tail ha
      simp only [List.mem_append, List.mem_cons] at hmem ⊢
      tauto
    · rintro rfl
      exact (List.nodup_cons.mp hsecond).1 ha

end Ring

end CommonLib.Reasoning
