import CommonLib.Reasoning.GoMap

/-!
# Lists ordered by last touch

A list of entries, one for each key, from the most to the least recently touched one.  What has
happened to it determines what it holds: `mem_after_iff` says which entries it has, and
`ordered_after` in which order.
-/

namespace CommonLib.Reasoning

inductive Happening (K I : Type*)
  | put (k : K) (i : I)
  | touch (k : K)
  | remove (k : K)
  -- The entry went to leave `room` entries.
  | evict (k : K) (room : Nat)

namespace Happening

variable {K I : Type*}

/-- The key comes to the front. -/
def Touches (k : K) : Happening K I → Prop
  | .put k' _ | .touch k' => k' = k
  | .remove _ | .evict _ _ => False

/-- Whatever entry the key had, it does not stand any more. -/
def Supersedes (k : K) : Happening K I → Prop
  | .put k' _ | .remove k' | .evict k' _ => k' = k
  | .touch _ => False

end Happening

namespace Recency

variable {K I : Type*}

def keys (l : List (K × I)) : List K := l.map (·.1)

/-- The last `put` of the key was of `i`, and nothing has superseded it. -/
def Standing (hs : List (Happening K I)) (k : K) (i : I) : Prop :=
  ∃ pre post, hs = pre ++ .put k i :: post ∧ ∀ h ∈ post, ¬h.Supersedes k

/-- `a` was touched after the last touch of `b`. -/
def MoreRecent (hs : List (Happening K I)) (a b : K) : Prop :=
  ∃ pre h post, hs = pre ++ h :: post ∧ h.Touches a ∧ ∀ h' ∈ h :: post, ¬h'.Touches b

theorem standing_concat {hs : List (Happening K I)} {h : Happening K I} {k : K} {i : I} :
    Standing (hs ++ [h]) k i ↔ h = .put k i ∨ Standing hs k i ∧ ¬h.Supersedes k := by
  constructor
  · rintro ⟨pre, post, heq, hpost⟩
    obtain rfl | ⟨post, last, rfl⟩ := List.eq_nil_or_concat' post
    · exact .inl (List.append_inj_right' heq rfl |> List.singleton_inj.mp)
    · rw [← List.cons_append, ← List.append_assoc] at heq
      obtain ⟨rfl, hlast⟩ := List.append_inj' heq rfl
      cases hlast
      exact .inr ⟨⟨pre, post, rfl, fun h' hh' ↦ hpost h' (List.mem_append_left _ hh')⟩,
        hpost h (List.mem_append_right _ List.mem_cons_self)⟩
  · rintro (rfl | ⟨⟨pre, post, rfl, hpost⟩, hlast⟩)
    · exact ⟨hs, [], rfl, by simp⟩
    · refine ⟨pre, post ++ [h], by simp, fun h' hh' ↦ ?_⟩
      obtain hh' | hh' := List.mem_append.mp hh'
      · exact hpost h' hh'
      · exact List.mem_singleton.mp hh' ▸ hlast

theorem MoreRecent.concat {hs : List (Happening K I)} {a b : K} (h : MoreRecent hs a b)
    {last : Happening K I} (hlast : ¬last.Touches b) : MoreRecent (hs ++ [last]) a b := by
  obtain ⟨pre, h', post, rfl, ha, hb⟩ := h
  refine ⟨pre, h', post ++ [last], by simp, ha, fun h'' hh'' ↦ ?_⟩
  rw [← List.cons_append, List.mem_append, List.mem_singleton] at hh''
  obtain hh'' | rfl := hh''
  · exact hb h'' hh''
  · exact hlast

theorem moreRecent_of_last (hs : List (Happening K I)) {last : Happening K I} {a b : K}
    (ha : last.Touches a) (hb : ¬last.Touches b) : MoreRecent (hs ++ [last]) a b :=
  ⟨hs, last, [], rfl, ha, by simpa using hb⟩

variable [DecidableEq K]

def find (l : List (K × I)) (k : K) : Option I := (l.find? fun e ↦ e.1 = k).map (·.2)

def without (l : List (K × I)) (k : K) : List (K × I) := l.filter fun e ↦ e.1 ≠ k

def apply (l : List (K × I)) : Happening K I → List (K × I)
  | .put k i => (k, i) :: without l k
  | .touch k => l.filter (fun e ↦ e.1 = k) ++ without l k
  | .remove k | .evict k _ => without l k

/-- The list after all this has happened, the first thing first. -/
def after (hs : List (Happening K I)) : List (K × I) := hs.foldl apply []

theorem after_concat (hs : List (Happening K I)) (h : Happening K I) :
    after (hs ++ [h]) = apply (after hs) h := by
  rw [after, List.foldl_append]
  rfl

theorem after_append (hs hs' : List (Happening K I)) :
    after (hs ++ hs') = hs'.foldl apply (after hs) := by
  rw [after, List.foldl_append]
  rfl

/-! ## What the list holds -/

theorem mem_without {l : List (K × I)} {k : K} {e : K × I} :
    e ∈ without l k ↔ e ∈ l ∧ e.1 ≠ k := by
  simp [without]

theorem mem_apply_iff {l : List (K × I)} {h : Happening K I} {k : K} {i : I} :
    (k, i) ∈ apply l h ↔ h = .put k i ∨ (k, i) ∈ l ∧ ¬h.Supersedes k := by
  cases h with
  | put k' i' =>
      rw [apply, List.mem_cons, mem_without, Prod.mk.injEq, Happening.put.injEq, eq_comm (a := i)]
      simp only [Happening.Supersedes, ne_eq, eq_comm (a := k)]
  | touch k' =>
      rw [apply, List.mem_append, mem_without, List.mem_filter]
      simp only [Happening.Supersedes, reduceCtorEq, false_or, not_false_eq_true, and_true,
        decide_eq_true_eq, ← and_or_left, em, ne_eq]
  | remove k' | evict k' room =>
      rw [apply, mem_without]
      simp only [Happening.Supersedes, reduceCtorEq, false_or, ne_eq, eq_comm (a := k)]

theorem mem_after_iff {hs : List (Happening K I)} {k : K} {i : I} :
    (k, i) ∈ after hs ↔ Standing hs k i := by
  induction hs using List.reverseRecOn with
  | nil =>
      refine iff_of_false List.not_mem_nil ?_
      rintro ⟨pre, post, heq, -⟩
      cases pre <;> cases heq
  | append_singleton hs h ih => rw [after_concat, mem_apply_iff, standing_concat, ih]

theorem find_eq_some_iff {l : List (K × I)} (hl : (keys l).Nodup) {k : K} {i : I} :
    find l k = some i ↔ (k, i) ∈ l := by
  rw [find, Option.map_eq_some_iff]
  constructor
  · rintro ⟨e, he, rfl⟩
    obtain ⟨hmem, rfl⟩ := (find?_key_eq_some_iff hl).mp he
    exact hmem
  · exact fun hmem ↦ ⟨(k, i), (find?_key_eq_some_iff hl).mpr ⟨hmem, rfl⟩, rfl⟩

theorem apply_touch_of_mem {l : List (K × I)} (hl : (keys l).Nodup) {k : K} {i : I}
    (h : (k, i) ∈ l) : apply l (.touch k) = (k, i) :: without l k := by
  have hone : l.filter (fun e ↦ e.1 = k) = [(k, i)] := by
    rw [filter_key_eq hl, (find?_key_eq_some_iff hl).mpr ⟨h, rfl⟩]
    rfl
  rw [apply, hone]
  rfl

/-! ## Its order -/

theorem nodup_without {l : List (K × I)} (h : (keys l).Nodup) (k : K) :
    (keys (without l k)).Nodup :=
  h.sublist (List.filter_sublist.map _)

theorem notMem_keys_without (l : List (K × I)) (k : K) : k ∉ keys (without l k) := by
  simp [keys, without]

theorem touch_perm (l : List (K × I)) (k : K) : (apply l (.touch k)).Perm l := by
  have hperm := List.filter_append_perm (fun e : K × I ↦ decide (e.1 = k)) l
  simpa only [apply, without, ne_eq, decide_not] using hperm

theorem nodup_apply {l : List (K × I)} (hl : (keys l).Nodup) (h : Happening K I) :
    (keys (apply l h)).Nodup := by
  cases h with
  | put k i => exact List.nodup_cons.mpr ⟨notMem_keys_without l k, nodup_without hl k⟩
  | touch k => exact ((touch_perm l k).map _).nodup_iff.mpr hl
  | remove k | evict k room => exact nodup_without hl k

theorem nodup_foldl_apply {l : List (K × I)} (hl : (keys l).Nodup) (hs : List (Happening K I)) :
    (keys (hs.foldl apply l)).Nodup := by
  induction hs generalizing l with
  | nil => exact hl
  | cons h hs ih => exact ih (nodup_apply hl h)

theorem nodup_after (hs : List (Happening K I)) : (keys (after hs)).Nodup :=
  nodup_foldl_apply (l := []) List.nodup_nil hs

theorem ordered_without {hs : List (Happening K I)} {l : List (K × I)} {h : Happening K I} {k : K}
    (hl : l.Pairwise fun e f ↦ MoreRecent hs e.1 f.1) (hk : ∀ b, h.Touches b → b = k) :
    (without l k).Pairwise fun e f ↦ MoreRecent (hs ++ [h]) e.1 f.1 := by
  refine (hl.filter _).imp_of_mem fun _ hf hef ↦ hef.concat fun hlast ↦ ?_
  exact (mem_without.mp hf).2 (hk _ hlast)

/-- Of any two entries, the first was touched after the last touch of the second. -/
theorem ordered_after (hs : List (Happening K I)) :
    (after hs).Pairwise fun e f ↦ MoreRecent hs e.1 f.1 := by
  induction hs using List.reverseRecOn with
  | nil => exact .nil
  | append_singleton hs h ih =>
      rw [after_concat]
      cases h with
      | put k i =>
          refine .cons (fun f hf ↦ ?_) (ordered_without ih fun b hb ↦ hb.symm)
          exact moreRecent_of_last hs rfl fun hlast ↦ (mem_without.mp hf).2 hlast.symm
      | touch k =>
          refine List.pairwise_append.mpr ⟨?_, ordered_without ih fun b hb ↦ hb.symm, ?_⟩
          · -- only one entry has the key
            have hone : (after hs).Pairwise fun e f ↦ e.1 ≠ f.1 :=
              List.pairwise_map.mp (nodup_after hs)
            refine (hone.filter _).imp_of_mem fun he hf hne ↦ absurd ?_ hne
            have he := of_decide_eq_true (List.mem_filter.mp he).2
            exact he.trans (of_decide_eq_true (List.mem_filter.mp hf).2).symm
          · intro e he f hf
            have he : e.1 = k := of_decide_eq_true (List.mem_filter.mp he).2
            exact moreRecent_of_last hs he.symm fun hlast ↦ (mem_without.mp hf).2 hlast.symm
      | remove k | evict k room => exact ordered_without ih fun b hb ↦ hb.elim

/-! ## Evictions and removals -/

theorem without_of_notMem {l : List (K × I)} {k : K} (h : k ∉ keys l) : without l k = l :=
  List.filter_eq_self.mpr fun _ he ↦ decide_eq_true fun heq ↦ h (heq ▸ List.mem_map_of_mem he)

theorem without_concat {l : List (K × I)} {e : K × I} (h : (keys (l ++ [e])).Nodup) :
    without (l ++ [e]) e.1 = l := by
  have hnotin : e.1 ∉ keys l := by
    rw [keys, List.map_append, List.nodup_append] at h
    exact fun hmem ↦ h.2.2 e.1 hmem e.1 List.mem_cons_self rfl
  rw [without, List.filter_append, ← without, without_of_notMem hnotin]
  simp

/-- What evicts all but the first `room` entries, from the last on. -/
def evictions (l : List (K × I)) (room : Nat) : List (Happening K I) :=
  (l.drop room).reverse.map fun e ↦ .evict e.1 room

/-- Whatever is evicted is the last entry, and there are more than may stay. -/
def EvictsLast (l : List (K × I)) (hs : List (Happening K I)) : Prop :=
  ∀ pre k room post, hs = pre ++ .evict k room :: post →
    (∃ i, (pre.foldl apply l).getLast? = some (k, i)) ∧ room < (pre.foldl apply l).length

theorem EvictsLast.append {l : List (K × I)} {hs hs' : List (Happening K I)}
    (h : EvictsLast l hs) (h' : EvictsLast (hs.foldl apply l) hs') : EvictsLast l (hs ++ hs') := by
  intro pre k room post heq
  obtain ⟨mid, rfl, hmid⟩ | ⟨mid, rfl, hmid⟩ := List.append_eq_append_iff.mp heq
  · rw [List.foldl_append]
    exact h' mid k room post hmid
  · cases mid with
    | nil =>
        rw [List.nil_append] at hmid
        have hhead := h' [] k room post hmid.symm
        rwa [List.append_nil] at hhead
    | cons first mid =>
        rw [List.cons_append, List.cons.injEq] at hmid
        obtain ⟨rfl, -⟩ := hmid
        exact h pre k room mid rfl

theorem evictsLast_of_not_evict {l : List (K × I)} {hs : List (Happening K I)}
    (h : ∀ k room, .evict k room ∉ hs) : EvictsLast l hs := by
  rintro pre k room post rfl
  exact absurd (List.mem_append_right _ List.mem_cons_self) (h k room)

/-- Evictions leave the first `room` entries, and each takes the last one there is. -/
theorem evictions_spec {l : List (K × I)} (hl : (keys l).Nodup) (room : Nat) :
    (evictions l room).foldl apply l = l.take room ∧ EvictsLast l (evictions l room) := by
  induction l using List.reverseRecOn with
  | nil =>
      rw [evictions, List.drop_nil, List.take_nil]
      exact ⟨rfl, evictsLast_of_not_evict fun _ _ ↦ List.not_mem_nil⟩
  | append_singleton l e ih =>
      by_cases hroom : room ≤ l.length
      · have hcons : evictions (l ++ [e]) room = .evict e.1 room :: evictions l room := by
          simp [evictions, List.drop_append_of_le_length hroom]
        have happly : apply (l ++ [e]) (.evict e.1 room) = l := without_concat hl
        obtain ⟨hfold, hlast⟩ := ih (hl.sublist ((List.sublist_append_left l [e]).map _))
        rw [hcons, List.foldl_cons, happly, List.take_append_of_le_length hroom]
        refine ⟨hfold, ?_⟩
        rintro (- | ⟨first, pre⟩) k room' post heq
        · cases heq
          exact ⟨⟨e.2, List.getLast?_concat⟩, by simp; omega⟩
        · obtain ⟨rfl, hrest⟩ := List.cons.inj heq
          rw [List.foldl_cons, happly]
          exact hlast pre k room' post hrest
      · have hnil : evictions (l ++ [e]) room = [] := by
          rw [evictions, List.drop_of_length_le (by simp; omega)]
          rfl
        rw [hnil, List.take_of_length_le (by simp; omega)]
        exact ⟨rfl, evictsLast_of_not_evict fun _ _ ↦ List.not_mem_nil⟩

theorem foldl_remove (l : List (K × I)) (ks : List K) :
    (ks.map Happening.remove).foldl apply l = l.filter fun e ↦ e.1 ∉ ks := by
  induction ks generalizing l with
  | nil => simp
  | cons k ks ih =>
      rw [List.map_cons, List.foldl_cons, ih, apply, without, List.filter_filter]
      simp [Bool.and_comm]

/-- Removing the keys of some entries leaves the others. -/
theorem foldl_remove_filter {l : List (K × I)} (hl : (keys l).Nodup) (p : K × I → Bool) :
    ((keys (l.filter p)).map Happening.remove).foldl apply l = l.filter fun e ↦ ¬p e := by
  rw [foldl_remove]
  refine List.filter_congr fun e he ↦ decide_eq_decide.mpr (not_congr ?_)
  rw [keys, List.mem_map]
  constructor
  · rintro ⟨f, hf, hkey⟩
    obtain ⟨hf, hpf⟩ := List.mem_filter.mp hf
    exact List.inj_on_of_nodup_map hl hf he hkey ▸ hpf
  · exact fun hpe ↦ ⟨e, List.mem_filter.mpr ⟨he, hpe⟩, rfl⟩

end Recency

end CommonLib.Reasoning
