import CommonLib.XDNS.Client.Priority

/-!
# When the resolver list is in order

The list stays sorted, with every entity once, exactly as long as no call has to insert an entity
before another one: the loop of `add` never inserts the new entity, it doubles the one it has read.
-/

namespace CommonLib.XDNS.Client

open CommonLib.Reasoning

variable {R : Type}

namespace PriorityResolver

def entry (r : PriorityResolver R) (e : EntityRef) : Int × R :=
  ((r.entities e).priority, (r.entities e).resolver)

def contents (r : PriorityResolver R) : List (Int × R) := r.refs.map r.entry

theorem priorities_eq (r : PriorityResolver R) : r.priorities = r.contents.map Prod.fst := by
  simp [priorities, contents, entry]

theorem mem_priorities {r : PriorityResolver R} {e : Int × R} (he : e ∈ r.contents) :
    e.1 ∈ r.priorities := by
  rw [priorities_eq]
  exact List.mem_map_of_mem he

theorem mem_priorities_iff {r : PriorityResolver R} {p : Int} :
    p ∈ r.priorities ↔ ∃ v, (p, v) ∈ r.contents := by
  rw [priorities_eq]
  simp

/-- What a call should make of the entities that are there, in whatever order they are kept. -/
def Expected (before : Multiset (Int × R)) : Call R → Multiset (Int × R) → Prop
  | .withResolver p v _, after =>
      (∃ v₀ rest, before = (p, v₀) ::ₘ rest ∧ after = (p, v) ::ₘ rest) ∨
        ((∀ e ∈ before, e.1 ≠ p) ∧ after = (p, v) ::ₘ before)
  | .add p v _, after => after = (p, v) ::ₘ before
  | .unset p, after =>
      (∃ v₀ rest, before = (p, v₀) ::ₘ rest ∧ after = rest) ∨
        ((∀ e ∈ before, e.1 ≠ p) ∧ after = before)

/-- The call has taken the list from `r` to `t` as documented. -/
structure Correct (r : PriorityResolver R) (call : Call R) (t : PriorityResolver R) : Prop where
  sorted : t.priorities.Pairwise (· ≤ ·)
  contents : Expected r.contents call t.contents
  with_count : ∀ p v timeout, call = .withResolver p v timeout → r.priorities.count p ≤ 1 →
    t.priorities.count p ≤ 1
  unset_count : ∀ p, call = .unset p → p ∈ r.priorities →
    t.priorities.count p + 1 = r.priorities.count p
  lookup_sorted : ∀ (Resp : Type) (probe : Nat → Probe Resp),
    ((t.lookup probe).2.2.map fun e ↦ (t.entities e).priority).Pairwise (· ≤ ·)

/-- No stored entity has to come after the new one, or the call replaces a stored one. -/
def InsertsLast (r : PriorityResolver R) : Call R → Prop
  | .withResolver p _ _ => (∀ q ∈ r.priorities, q ≤ p) ∨ p ∈ r.priorities
  | .add p _ _ => ∀ q ∈ r.priorities, q ≤ p
  | .unset _ => True

/-! ## Lookup -/

theorem lookupLoop_sublist {Resp : Type} (probe : Nat → Probe Resp) (es : List EntityRef) (i : Nat)
    (r : PriorityResolver R) : (lookupLoop probe es i r).2.2.Sublist es := by
  induction es generalizing i r with
  | nil => exact .slnil
  | cons e es ih =>
      unfold lookupLoop
      split
      · split
        · exact List.Sublist.cons_cons e (List.nil_sublist es)
        · exact List.Sublist.cons_cons e (ih ..)
        · exact List.Sublist.cons_cons e (ih ..)
      · exact List.Sublist.cons e (ih ..)

theorem lookup_sorted_of_sorted {r : PriorityResolver R} (h : r.priorities.Pairwise (· ≤ ·))
    {Resp : Type} (probe : Nat → Probe Resp) :
    ((r.lookup probe).2.2.map fun e ↦ (r.entities e).priority).Pairwise (· ≤ ·) :=
  h.sublist ((lookupLoop_sublist probe r.refs 0 r).map _)

/-! ## Get -/

theorem mem_of_get {r : PriorityResolver R} {p : Int} {v : R} (h : r.get p = .ok v) :
    (p, v) ∈ r.contents := by
  unfold get at h
  split at h
  next e hfind =>
    cases h
    have hp : (r.entities e).priority = p := by simpa using List.find?_some hfind
    exact List.mem_map.mpr ⟨e, List.mem_of_find?_eq_some hfind, by rw [entry, hp]⟩
  next => cases h

theorem not_mem_of_get {r : PriorityResolver R} {p : Int} {err : ClientError}
    (h : r.get p = .error err) : p ∉ r.priorities := by
  unfold get at h
  split at h
  next => cases h
  next hfind =>
    intro hmem
    obtain ⟨e, he, hp⟩ := List.mem_map.mp hmem
    exact List.find?_eq_none.mp hfind e he (decide_eq_true hp)

/-- Where no priority is in the list twice, `get` finds whatever is there. -/
theorem get_eq_ok_iff {r : PriorityResolver R} (hnodup : r.priorities.Nodup) {p : Int} {v : R} :
    r.get p = .ok v ↔ (p, v) ∈ r.contents := by
  refine ⟨mem_of_get, fun hmem ↦ ?_⟩
  cases hget : r.get p with
  | error err => exact absurd (mem_priorities hmem) (not_mem_of_get hget)
  | ok w =>
      rw [priorities_eq] at hnodup
      have heq := List.inj_on_of_nodup_map hnodup (mem_of_get hget) hmem rfl
      rw [(Prod.mk.inj heq).2]

/-! ## Counting -/

theorem count_priorities (r : PriorityResolver R) (p : Int) :
    r.priorities.count p = (Multiset.map Prod.fst (r.contents : Multiset (Int × R))).count p := by
  rw [priorities_eq, Multiset.map_coe, Multiset.coe_count]

theorem Expected.with_count {before after : Multiset (Int × R)} {p : Int} {v : R} {timeout : Int}
    (h : Expected before (.withResolver p v timeout) after)
    (hbefore : (before.map Prod.fst).count p ≤ 1) : (after.map Prod.fst).count p ≤ 1 := by
  -- a replacement keeps the number of entities; otherwise the priority is new
  rcases h with ⟨v₀, rest, rfl, rfl⟩ | ⟨hnone, rfl⟩
  · simpa using hbefore
  · have hzero : (before.map Prod.fst).count p = 0 := by
      rw [Multiset.count_eq_zero, Multiset.mem_map]
      exact fun ⟨e, he, heq⟩ ↦ hnone e he heq
    simp [hzero]

theorem Expected.unset_count {before after : Multiset (Int × R)} {p : Int}
    (h : Expected before (.unset p) after) (hmem : p ∈ before.map Prod.fst) :
    (after.map Prod.fst).count p + 1 = (before.map Prod.fst).count p := by
  rcases h with ⟨v₀, rest, rfl, rfl⟩ | ⟨hnone, rfl⟩
  · simp
  · obtain ⟨e, he, heq⟩ := Multiset.mem_map.mp hmem
    exact absurd heq (hnone e he)

theorem Expected.with_nodup {before after : Multiset (Int × R)} {p : Int} {v : R} {timeout : Int}
    (h : Expected before (.withResolver p v timeout) after)
    (hnodup : (before.map Prod.fst).Nodup) : (after.map Prod.fst).Nodup := by
  rcases h with ⟨v₀, rest, rfl, rfl⟩ | ⟨hnone, rfl⟩
  · simpa using hnodup
  · rw [Multiset.map_cons, Multiset.nodup_cons]
    refine ⟨fun hmem ↦ ?_, hnodup⟩
    obtain ⟨e, he, heq⟩ := Multiset.mem_map.mp hmem
    exact hnone e he heq

theorem Expected.with_mem {before after : Multiset (Int × R)} {p : Int} {v : R} {timeout : Int}
    (h : Expected before (.withResolver p v timeout) after) (hnodup : (before.map Prod.fst).Nodup)
    {q : Int} {w : R} : (q, w) ∈ after ↔ (q = p ∧ w = v) ∨ (q ≠ p ∧ (q, w) ∈ before) := by
  rcases h with ⟨v₀, rest, rfl, rfl⟩ | ⟨hnone, rfl⟩
  · rw [Multiset.map_cons, Multiset.nodup_cons] at hnodup
    -- what is left besides the replaced entity has other priorities
    have hne : ∀ w, (q, w) ∈ rest → q ≠ p := fun w hw heq ↦
      hnodup.1 (Multiset.mem_map.mpr ⟨(q, w), hw, heq⟩)
    simp only [Multiset.mem_cons, Prod.mk.injEq]
    grind
  · have hne : ∀ w, (q, w) ∈ before → q ≠ p := fun w hw ↦ hnone (q, w) hw
    simp only [Multiset.mem_cons, Prod.mk.injEq]
    grind

theorem Correct.of_expected {r t : PriorityResolver R} {call : Call R}
    (hsorted : t.priorities.Pairwise (· ≤ ·)) (h : Expected r.contents call t.contents) :
    Correct r call t where
  sorted := hsorted
  contents := h
  with_count p v timeout hcall hle := by
    subst hcall
    rw [count_priorities] at hle ⊢
    exact h.with_count hle
  unset_count p hcall hmem := by
    subst hcall
    rw [count_priorities, count_priorities]
    apply h.unset_count
    rwa [priorities_eq] at hmem
  lookup_sorted _ probe := lookup_sorted_of_sorted hsorted probe

/-! ## The loop -/

/-- The loop goes past `e` without doing anything. -/
def Passes (r : PriorityResolver R) (p : Int) (replace : Bool) (e : EntityRef) : Prop :=
  (r.entities e).priority ≤ p ∧ ((r.entities e).priority = p → replace = false)

theorem addLoop_pass (g : Growth) (ranged : Slice) (p : Int) (v : R) (replace : Bool)
    (idxs rest : List Nat) (r : PriorityResolver R)
    (hpass : ∀ idx ∈ idxs, r.Passes p replace (ranged.get r.arrays idx)) :
    addLoop g ranged p v replace (idxs ++ rest) r = addLoop g ranged p v replace rest r := by
  induction idxs with
  | nil => rfl
  | cons idx idxs ih =>
      obtain ⟨hle, heq⟩ := hpass idx List.mem_cons_self
      rw [List.cons_append, addLoop, if_neg (fun hand ↦ by simp [heq hand.1] at hand),
        if_neg (not_lt.mpr hle)]
      exact ih fun i hi ↦ hpass i (List.mem_cons_of_mem idx hi)

theorem insertAt_len (g : Growth) {r : PriorityResolver R} {idx : Nat} (e : EntityRef)
    (hidx : idx ≤ r.resolvers.len) :
    (r.insertAt g idx e).resolvers.len = r.resolvers.len + 1 := by
  unfold insertAt
  simp only [Slice.append_len, Slice.length_toList, List.length_singleton]
  change idx + 1 + (r.resolvers.len - idx) = _
  omega

/-- Whatever the two appends overwrite, no array gets an entity that was not in the list. -/
theorem insertAt_forall {P : EntityRef → Prop} (g : Growth) {r : PriorityResolver R} {ranged : Slice}
    {idx : Nat} {e : EntityRef} (hidx : idx ≤ r.resolvers.len)
    (harr : r.resolvers.arr < r.arrays.fresh) (hranged : ranged.arr < r.arrays.fresh)
    (hP : ∀ x ∈ ranged.toList r.arrays, P x) (hrefs : ∀ x ∈ r.refs, P x) (he : P e) :
    (∀ x ∈ ranged.toList (r.insertAt g idx e).arrays, P x) ∧
      (∀ x ∈ (r.insertAt g idx e).refs, P x) := by
  have hone : ∀ x ∈ [e], P x := by simpa using he
  have hupTo : ∀ x ∈ (r.resolvers.upTo idx).toList r.arrays, P x := by
    rw [Slice.toList_upTo r.arrays hidx]
    exact fun x hx ↦ hrefs x (List.mem_of_mem_take hx)
  have hafter : ∀ x ∈ (r.resolvers.after idx).toList
      (Slice.append g r.arrays (r.resolvers.upTo idx) [e]).1, P x := by
    apply Slice.forall_toList_append (t := r.resolvers.after idx) g harr _ hone
    rw [Slice.toList_after]
    exact fun x hx ↦ hrefs x (List.mem_of_mem_drop hx)
  have hfresh := Slice.append_fresh_le g r.arrays (r.resolvers.upTo idx) [e]
  constructor
  · apply Slice.forall_toList_append g (hranged.trans_le hfresh) _ hafter
    exact Slice.forall_toList_append g hranged hP hone
  · intro x hx
    change x ∈ (Slice.append g _ _ _).2.toList (Slice.append g _ _ _).1 at hx
    rw [Slice.toList_append, Slice.toList_append, List.mem_append, List.mem_append] at hx
    rcases hx with (hx | hx) | hx
    · exact hupTo x hx
    · exact hone x hx
    · exact hafter x hx

/-- What the loop finds at each of its steps when there is no entity to replace: neither the slice it
ranges over nor the list it changes holds one, whichever array the two are in by then. -/
structure NoneToReplace (ranged : Slice) (p : Int) (replace : Bool) (r : PriorityResolver R) :
    Prop where
  len_le : ranged.len ≤ r.resolvers.len
  arr_lt : r.resolvers.arr < r.arrays.fresh
  ranged_lt : ranged.arr < r.arrays.fresh
  ranged_keep : ∀ e ∈ ranged.toList r.arrays, (r.entities e).priority = p → replace = false
  refs_keep : ∀ e ∈ r.refs, (r.entities e).priority = p → replace = false

namespace NoneToReplace

variable {ranged : Slice} {p : Int} {replace : Bool} {r : PriorityResolver R} {idx : Nat}

theorem at_get (h : NoneToReplace ranged p replace r) (hidx : idx < ranged.len) :
    (r.entities (ranged.get r.arrays idx)).priority = p → replace = false :=
  h.ranged_keep _ (List.mem_map.mpr ⟨idx, List.mem_range.mpr hidx, rfl⟩)

theorem insertAt (g : Growth) (h : NoneToReplace ranged p replace r) (hidx : idx < ranged.len) :
    NoneToReplace ranged p replace (r.insertAt g idx (ranged.get r.arrays idx)) := by
  have hle : idx ≤ r.resolvers.len := hidx.le.trans h.len_le
  have hall := insertAt_forall g hle h.arr_lt h.ranged_lt h.ranged_keep h.refs_keep (h.at_get hidx)
  constructor
  · rw [insertAt_len g _ hle]
    exact h.len_le.trans (Nat.le_succ _)
  · exact Slice.append_arr_lt g _ (Slice.append_arr_lt g _ h.arr_lt)
  · exact h.ranged_lt.trans_le ((Slice.append_fresh_le ..).trans (Slice.append_fresh_le ..))
  · exact hall.1
  · exact hall.2

end NoneToReplace

/-- Without an entity to replace the loop runs to its end, and the list never gets shorter. -/
theorem addLoop_grows (g : Growth) (ranged : Slice) (p : Int) (v : R) (replace : Bool)
    (idxs : List Nat) (r : PriorityResolver R) (hidxs : ∀ idx ∈ idxs, idx < ranged.len)
    (h : NoneToReplace ranged p replace r) :
    (addLoop g ranged p v replace idxs r).2 = false ∧
      r.resolvers.len ≤ (addLoop g ranged p v replace idxs r).1.resolvers.len := by
  induction idxs generalizing r with
  | nil => exact ⟨rfl, le_rfl⟩
  | cons idx idxs ih =>
      have hidx := hidxs idx List.mem_cons_self
      have hrest : ∀ i ∈ idxs, i < ranged.len := fun i hi ↦ hidxs i (List.mem_cons_of_mem idx hi)
      unfold addLoop
      rw [if_neg (fun hand ↦ by simp [h.at_get hidx hand.1] at hand)]
      split
      · -- the entity read is inserted once more, and the loop goes on behind it
        obtain ⟨hend, hlen⟩ := ih _ hrest (h.insertAt g hidx)
        rw [insertAt_len g _ (hidx.le.trans h.len_le)] at hlen
        exact ⟨hend, (Nat.le_succ _).trans hlen⟩
      · exact ih r hrest h

/-! ## What each call does -/

structure Inv (r : PriorityResolver R) : Prop where
  sorted : r.priorities.Pairwise (· ≤ ·)
  nodup : r.refs.Nodup
  allocated : ∀ e ∈ r.refs, e < r.freshEntity
  arr_lt : r.resolvers.arr < r.arrays.fresh

theorem refs_appendEntity (g : Growth) (r : PriorityResolver R) (e : EntityRef) :
    (r.appendEntity g e).refs = r.refs ++ [e] :=
  Slice.toList_append ..

theorem allocEntity_entities {r : PriorityResolver R} (h : Inv r) (entity : PriorityEntity R)
    {e : EntityRef} (he : e ∈ r.refs) : (r.allocEntity entity).entities e = r.entities e :=
  Function.update_of_ne (h.allocated e he).ne ..

theorem Passes.alloc {r : PriorityResolver R} {p : Int} {replace : Bool} {e : EntityRef}
    (h : Inv r) (entity : PriorityEntity R) (he : e ∈ r.refs) (hpass : r.Passes p replace e) :
    (r.allocEntity entity).Passes p replace e := by
  unfold Passes
  rw [allocEntity_entities h entity he]
  exact hpass

theorem add_eq (g : Growth) (r : PriorityResolver R) (p : Int) (v : R) (timeout : Int)
    (replace : Bool) :
    r.add g p v timeout replace =
      match addLoop g r.resolvers p v replace (List.range r.resolvers.len)
        (r.allocEntity ⟨p, v, timeout, 0⟩) with
      | (t, true) => t
      | (t, false) => t.appendEntity g r.freshEntity := rfl

/-- Where no stored entity is greater, or is to be replaced, the new one goes to the end. -/
theorem add_of_passes (g : Growth) {r : PriorityResolver R} {p : Int} (v : R) (timeout : Int)
    {replace : Bool} (h : Inv r) (hpass : ∀ e ∈ r.refs, r.Passes p replace e) :
    r.add g p v timeout replace =
      (r.allocEntity ⟨p, v, timeout, 0⟩).appendEntity g r.freshEntity := by
  have hloop := addLoop_pass g r.resolvers p v replace (List.range r.resolvers.len) []
    (r.allocEntity ⟨p, v, timeout, 0⟩) (by
      intro idx hidx
      have hmem : r.resolvers.get r.arrays idx ∈ r.refs := List.mem_map.mpr ⟨idx, hidx, rfl⟩
      exact (hpass _ hmem).alloc h _ hmem)
  rw [List.append_nil] at hloop
  rw [add_eq, hloop]
  rfl

theorem exists_first {α : Type} {P : α → Prop} [DecidablePred P] {l : List α}
    (h : ∃ x ∈ l, P x) : ∃ xs x ys, l = xs ++ x :: ys ∧ P x ∧ ∀ y ∈ xs, ¬ P y := by
  obtain ⟨y, hy, hPy⟩ := h
  have hsome : (l.find? (fun x ↦ decide (P x))).isSome :=
    List.find?_isSome.mpr ⟨y, hy, decide_eq_true hPy⟩
  obtain ⟨x, hx⟩ := Option.isSome_iff_exists.mp hsome
  obtain ⟨hPx, xs, ys, hl, hxs⟩ := List.find?_eq_some_iff_append.mp hx
  exact ⟨xs, x, ys, hl, of_decide_eq_true hPx, fun y hy ↦ by simpa using hxs y hy⟩

theorem range_split {r : PriorityResolver R} {xs ys : List EntityRef} {e : EntityRef}
    (hrefs : r.refs = xs ++ e :: ys) :
    ∃ is i js, List.range r.resolvers.len = is ++ i :: js ∧
      is.map (r.resolvers.get r.arrays) = xs ∧ r.resolvers.get r.arrays i = e := by
  obtain ⟨is, rest, hrange, his, hrest⟩ := List.map_eq_append_iff.mp hrefs
  obtain ⟨i, js, rfl, hi, -⟩ := List.map_eq_cons_iff.mp hrest
  exact ⟨is, i, js, hrange, his, hi⟩

/-- The loop reaches the first entity of the list it does not pass. -/
theorem addLoop_reaches (g : Growth) {r : PriorityResolver R} {p : Int} (v : R) {replace : Bool}
    (entity : PriorityEntity R) (h : Inv r) {xs ys : List EntityRef} {e : EntityRef}
    (hrefs : r.refs = xs ++ e :: ys) (hpass : ∀ x ∈ xs, r.Passes p replace x) :
    ∃ i js, (∀ j ∈ i :: js, j < r.resolvers.len) ∧ r.resolvers.get r.arrays i = e ∧
      addLoop g r.resolvers p v replace (List.range r.resolvers.len) (r.allocEntity entity) =
        addLoop g r.resolvers p v replace (i :: js) (r.allocEntity entity) := by
  obtain ⟨is, i, js, hrange, his, hi⟩ := range_split hrefs
  refine ⟨i, js, fun j hj ↦ ?_, hi, ?_⟩
  · apply List.mem_range.mp
    rw [hrange]
    exact List.mem_append_right is hj
  · rw [hrange]
    apply addLoop_pass
    intro idx hidx
    have hmem : r.resolvers.get r.arrays idx ∈ xs := his ▸ List.mem_map_of_mem hidx
    exact (hpass _ hmem).alloc h entity (hrefs ▸ List.mem_append_left _ hmem)

theorem add_replaces (g : Growth) {r : PriorityResolver R} {p : Int} (v : R) (timeout : Int)
    (h : Inv r) (hmem : p ∈ r.priorities) :
    ∃ xs e ys, r.refs = xs ++ e :: ys ∧ (r.entities e).priority = p ∧
      r.add g p v timeout true = (r.allocEntity ⟨p, v, timeout, 0⟩).setResolver e v := by
  obtain ⟨xs, e, ys, hrefs, hep, hxs⟩ := exists_first (List.mem_map.mp hmem)
  -- The list is sorted, so what comes before the first entity of the priority is smaller.
  have hpass : ∀ x ∈ xs, r.Passes p true x := by
    intro x hx
    have hsorted := h.sorted
    unfold priorities at hsorted
    rw [hrefs, List.map_append, List.pairwise_append] at hsorted
    have hle := hsorted.2.2 _ (List.mem_map_of_mem hx) p (by simp [hep])
    exact ⟨hle, fun heq ↦ absurd heq (hxs x hx)⟩
  refine ⟨xs, e, ys, hrefs, hep, ?_⟩
  obtain ⟨i, js, -, hi, hloop⟩ := addLoop_reaches g v ⟨p, v, timeout, 0⟩ h hrefs hpass
  have hmem' : e ∈ r.refs := hrefs ▸ List.mem_append_right xs List.mem_cons_self
  have hget : r.resolvers.get (r.allocEntity ⟨p, v, timeout, 0⟩).arrays i = e := hi
  have hprio : ((r.allocEntity ⟨p, v, timeout, 0⟩).entities e).priority = p := by
    rw [allocEntity_entities h _ hmem', hep]
  rw [add_eq, hloop, addLoop, hget, if_pos ⟨hprio, rfl⟩]
  change (r.allocEntity _).setResolver (r.resolvers.get r.arrays i) v = _
  rw [hi]

/-- Where the new entity belongs before another one, the list gets at least two longer. -/
theorem add_overgrows (g : Growth) {r : PriorityResolver R} {p : Int} (v : R) (timeout : Int)
    (replace : Bool) (h : Inv r) (hgreater : ∃ q ∈ r.priorities, p < q)
    (hkeep : ∀ e ∈ r.refs, (r.entities e).priority = p → replace = false) :
    r.resolvers.len + 2 ≤ (r.add g p v timeout replace).resolvers.len := by
  obtain ⟨q, hq, hpq⟩ := hgreater
  obtain ⟨e₀, he₀, rfl⟩ := List.mem_map.mp hq
  obtain ⟨xs, e, ys, hrefs, hep, hxs⟩ :=
    exists_first (P := fun e ↦ p < (r.entities e).priority) ⟨e₀, he₀, hpq⟩
  have hpass : ∀ x ∈ xs, r.Passes p replace x := fun x hx ↦
    ⟨not_lt.mp (hxs x hx), hkeep x (hrefs ▸ List.mem_append_left _ hx)⟩
  obtain ⟨i, js, hlt, hi, hloop⟩ := addLoop_reaches g v ⟨p, v, timeout, 0⟩ h hrefs hpass
  let a := r.allocEntity ⟨p, v, timeout, 0⟩
  have hentities : ∀ x ∈ r.refs, a.entities x = r.entities x :=
    fun x hx ↦ allocEntity_entities h _ hx
  have hkeep' : ∀ x ∈ a.refs, (a.entities x).priority = p → replace = false := fun x hx ↦ by
    rw [hentities x hx]
    exact hkeep x hx
  have hnone : NoneToReplace r.resolvers p replace a := ⟨le_rfl, h.arr_lt, h.arr_lt, hkeep', hkeep'⟩
  have hidx : i < r.resolvers.len := hlt i List.mem_cons_self
  have hget : r.resolvers.get a.arrays i = e := hi
  have hprio : p < (a.entities (r.resolvers.get a.arrays i)).priority := by
    rw [hget, hentities e (hrefs ▸ List.mem_append_right xs List.mem_cons_self)]
    exact hep
  -- Doubling the entity makes the list longer by one, and the new entity follows after the loop.
  have hstep : addLoop g r.resolvers p v replace (i :: js) a =
      addLoop g r.resolvers p v replace js (a.insertAt g i (r.resolvers.get a.arrays i)) := by
    rw [addLoop, if_neg (fun hand ↦ hprio.ne' hand.1), if_pos hprio]
  obtain ⟨hend, hlen⟩ := addLoop_grows g r.resolvers p v replace js _
    (fun j hj ↦ hlt j (List.mem_cons_of_mem i hj)) (hnone.insertAt g hidx)
  have hidx' : i ≤ a.resolvers.len := hidx.le
  rw [insertAt_len g _ hidx', ← hstep, ← hloop] at hlen
  rw [← hstep, ← hloop] at hend
  rw [add_eq]
  split
  next t heq => rw [heq] at hend; cases hend
  next t heq =>
    rw [heq] at hlen
    change _ ≤ (Slice.append g _ _ _).2.len
    rw [Slice.append_len]
    exact Nat.succ_le_succ hlen

theorem append_spec (g : Growth) {r : PriorityResolver R} (h : Inv r) (p : Int) (v : R)
    (timeout : Int) (hle : ∀ q ∈ r.priorities, q ≤ p) :
    let t := (r.allocEntity ⟨p, v, timeout, 0⟩).appendEntity g r.freshEntity
    Inv t ∧ t.contents = r.contents ++ [(p, v)] := by
  intro t
  have hrefs : t.refs = r.refs ++ [r.freshEntity] := refs_appendEntity ..
  have hold : ∀ e ∈ r.refs, t.entities e = r.entities e :=
    fun e he ↦ allocEntity_entities h _ he
  have hnew : t.entities r.freshEntity = ⟨p, v, timeout, 0⟩ := Function.update_self ..
  have hcontents : t.contents = r.contents ++ [(p, v)] := by
    unfold contents
    rw [hrefs, List.map_append, List.map_singleton, entry, hnew]
    congr 1
    exact List.map_congr_left fun e he ↦ by rw [entry, entry, hold e he]
  refine ⟨⟨?_, ?_, ?_, ?_⟩, hcontents⟩
  · rw [priorities_eq, hcontents, List.map_append, ← priorities_eq, List.map_singleton,
      List.pairwise_append]
    exact ⟨h.sorted, List.pairwise_singleton .., fun q hq p' hp' ↦ by
      rw [List.mem_singleton.mp hp']
      exact hle q hq⟩
  · rw [hrefs, List.nodup_append]
    exact ⟨h.nodup, List.nodup_singleton _, fun e he e' he' ↦ by
      rw [List.mem_singleton.mp he']
      exact (h.allocated e he).ne⟩
  · intro e he
    rw [hrefs, List.mem_append, List.mem_singleton] at he
    rcases he with he | rfl
    · exact Nat.lt_succ_of_lt (h.allocated e he)
    · exact Nat.lt_succ_self _
  · exact Slice.append_arr_lt g _ h.arr_lt

theorem replace_spec {r : PriorityResolver R} (h : Inv r) {p : Int} (v : R) (timeout : Int)
    {xs ys : List EntityRef} {e : EntityRef} (hrefs : r.refs = xs ++ e :: ys)
    (hp : (r.entities e).priority = p) :
    let t := (r.allocEntity ⟨p, v, timeout, 0⟩).setResolver e v
    Inv t ∧ ∃ v₀ as bs, r.contents = as ++ (p, v₀) :: bs ∧ t.contents = as ++ (p, v) :: bs := by
  intro t
  have hmem : ∀ x, x ∈ xs ∨ x = e ∨ x ∈ ys → x ∈ r.refs := fun x hx ↦ by
    rw [hrefs, List.mem_append, List.mem_cons]
    exact hx
  have hnodup := h.nodup
  rw [hrefs] at hnodup
  -- the entity is in the list once, so only its own entry changes
  have hnotin := (List.nodup_cons.mp (List.nodup_middle.mp hnodup)).1
  rw [List.mem_append, not_or] at hnotin
  have hold : ∀ x ∈ r.refs, x ≠ e → t.entities x = r.entities x := fun x hx hne ↦ by
    change Function.update _ e _ x = _
    rw [Function.update_of_ne hne, allocEntity_entities h _ hx]
  have hnew : t.entities e = { r.entities e with resolver := v } := by
    change Function.update _ e _ e = _
    rw [Function.update_self, allocEntity_entities h _ (hmem e (.inr (.inl rfl)))]
  have hmap : ∀ l : List EntityRef, (∀ x ∈ l, x ∈ r.refs ∧ x ≠ e) →
      l.map t.entry = l.map r.entry := fun l hl ↦
    List.map_congr_left fun x hx ↦ by rw [entry, entry, hold x (hl x hx).1 (hl x hx).2]
  have hcontents : ∃ v₀ as bs, r.contents = as ++ (p, v₀) :: bs ∧
      t.contents = as ++ (p, v) :: bs := by
    refine ⟨(r.entities e).resolver, xs.map r.entry, ys.map r.entry, ?_, ?_⟩
    · rw [contents, hrefs, List.map_append, List.map_cons, entry, hp]
    · rw [contents, show t.refs = xs ++ e :: ys from hrefs, List.map_append, List.map_cons, entry,
        hnew, hp,
        hmap xs fun x hx ↦ ⟨hmem x (.inl hx), fun heq ↦ hnotin.1 (heq ▸ hx)⟩,
        hmap ys fun x hx ↦ ⟨hmem x (.inr (.inr hx)), fun heq ↦ hnotin.2 (heq ▸ hx)⟩]
  refine ⟨⟨?_, h.nodup, fun x hx ↦ Nat.lt_succ_of_lt (h.allocated x hx), h.arr_lt⟩, hcontents⟩
  obtain ⟨v₀, as, bs, hr, ht⟩ := hcontents
  have hsorted := h.sorted
  rw [priorities_eq, hr] at hsorted
  rw [priorities_eq, ht]
  simpa using hsorted

theorem refs_removeAt (g : Growth) {r : PriorityResolver R} {idx : Nat}
    (hidx : idx < r.resolvers.len) :
    (r.removeAt g idx).refs = r.refs.take idx ++ r.refs.drop (idx + 1) := by
  change (Slice.append g _ _ _).2.toList (Slice.append g _ _ _).1 = _
  rw [Slice.toList_append, Slice.toList_upTo r.arrays hidx.le, Slice.toList_after]
  rfl

theorem refs_split {r : PriorityResolver R} {idx : Nat} (hidx : idx < r.resolvers.len) :
    r.refs = r.refs.take idx ++ r.resolvers.get r.arrays idx :: r.refs.drop (idx + 1) := by
  have hget : r.refs[idx]? = some (r.resolvers.get r.arrays idx) := by
    unfold refs
    rw [Slice.getElem?_toList, if_pos hidx]
  obtain ⟨hlt, hget⟩ := List.getElem?_eq_some_iff.mp hget
  rw [← hget, List.getElem_cons_drop, List.take_append_drop]

theorem unset_spec (g : Growth) {r : PriorityResolver R} (h : Inv r) (p : Int) :
    (p ∉ r.priorities ∧ (r.unset g p).2 = r) ∨
      (Inv (r.unset g p).2 ∧ ∃ v₀ as bs, r.contents = as ++ (p, v₀) :: bs ∧
        (r.unset g p).2.contents = as ++ bs) := by
  cases hfound : (List.range r.resolvers.len).find? fun idx ↦
      (r.entities (r.resolvers.get r.arrays idx)).priority = p with
  | none =>
      refine .inl ⟨fun hmem ↦ ?_, by unfold unset; rw [hfound]⟩
      obtain ⟨e, he, hep⟩ := List.mem_map.mp hmem
      obtain ⟨idx, hidx, rfl⟩ := List.mem_map.mp he
      simpa [hep] using List.find?_eq_none.mp hfound idx hidx
  | some idx =>
      have hidx : idx < r.resolvers.len := List.mem_range.mp (List.mem_of_find?_eq_some hfound)
      have hp : (r.entities (r.resolvers.get r.arrays idx)).priority = p := by
        simpa using List.find?_some hfound
      have hunset : (r.unset g p).2 = r.removeAt g idx := by
        unfold unset
        rw [hfound]
      have hsub : (r.removeAt g idx).refs.Sublist r.refs := by
        rw [refs_removeAt g hidx]
        nth_rewrite 3 [refs_split hidx]
        exact (List.Sublist.refl _).append (List.sublist_cons_self ..)
      rw [hunset]
      refine .inr ⟨⟨h.sorted.sublist (hsub.map _), h.nodup.sublist hsub,
        fun e he ↦ h.allocated e (hsub.subset he), Slice.append_arr_lt g _ h.arr_lt⟩, ?_⟩
      refine ⟨(r.entities (r.resolvers.get r.arrays idx)).resolver,
        (r.refs.take idx).map r.entry, (r.refs.drop (idx + 1)).map r.entry, ?_, ?_⟩
      · nth_rewrite 1 [contents, refs_split hidx]
        rw [List.map_append, List.map_cons, entry, hp]
      · rw [contents, refs_removeAt g hidx, List.map_append]
        rfl

theorem exec_spec (g : Growth) {r : PriorityResolver R} (h : Inv r) {call : Call R}
    (hlast : r.InsertsLast call) :
    Inv (r.exec g call) ∧ Expected r.contents call (r.exec g call).contents := by
  have hpasses : ∀ p replace, (∀ q ∈ r.priorities, q ≤ p) → (p ∈ r.priorities → replace = false) →
      ∀ e ∈ r.refs, r.Passes p replace e := fun p replace hle hmem e he ↦
    ⟨hle _ (List.mem_map_of_mem he), fun heq ↦ hmem (heq ▸ List.mem_map_of_mem he)⟩
  cases call with
  | withResolver p v timeout =>
      by_cases hmem : p ∈ r.priorities
      · obtain ⟨xs, e, ys, hrefs, hep, hadd⟩ := add_replaces g v timeout h hmem
        obtain ⟨hinv, v₀, as, bs, hr, ht⟩ := replace_spec h v timeout hrefs hep
        rw [exec, hadd]
        refine ⟨hinv, .inl ⟨v₀, as ++ bs, ?_, ?_⟩⟩
        · rw [hr]
          exact Multiset.coe_eq_coe.mpr List.perm_middle
        · rw [ht]
          exact Multiset.coe_eq_coe.mpr List.perm_middle
      · have hle : ∀ q ∈ r.priorities, q ≤ p := hlast.resolve_right hmem
        obtain ⟨hinv, ht⟩ := append_spec g h p v timeout hle
        rw [exec, add_of_passes g v timeout h (hpasses p true hle fun hp ↦ absurd hp hmem)]
        refine ⟨hinv, .inr ⟨fun e he heq ↦ hmem (heq ▸ mem_priorities he), ?_⟩⟩
        rw [ht]
        exact Multiset.coe_eq_coe.mpr (List.perm_append_singleton ..)
  | add p v timeout =>
      obtain ⟨hinv, ht⟩ := append_spec g h p v timeout hlast
      rw [exec, add_of_passes g v timeout h (hpasses p false hlast fun _ ↦ rfl)]
      refine ⟨hinv, ?_⟩
      rw [ht]
      exact Multiset.coe_eq_coe.mpr (List.perm_append_singleton ..)
  | unset p =>
      rw [exec]
      rcases unset_spec g h p with ⟨hmem, hsame⟩ | ⟨hinv, v₀, as, bs, hr, ht⟩
      · rw [hsame]
        exact ⟨h, .inr ⟨fun e he heq ↦ hmem (heq ▸ mem_priorities he), rfl⟩⟩
      · refine ⟨hinv, .inl ⟨v₀, as ++ bs, ?_, ?_⟩⟩
        · rw [hr]
          exact Multiset.coe_eq_coe.mpr List.perm_middle
        · rw [ht]

/-- `With` at a place that needs no insertion, where no priority is in the list twice. -/
theorem with_spec (g : Growth) {r : PriorityResolver R} (h : Inv r) (hnodup : r.priorities.Nodup)
    {p : Int} {v : R} {timeout : Int} (hlast : r.InsertsLast (.withResolver p v timeout)) :
    Inv (r.exec g (.withResolver p v timeout)) ∧
      (r.exec g (.withResolver p v timeout)).priorities.Nodup ∧
      ∀ q w, (q, w) ∈ (r.exec g (.withResolver p v timeout)).contents ↔
        (q = p ∧ w = v) ∨ (q ≠ p ∧ (q, w) ∈ r.contents) := by
  obtain ⟨hinv, hexpected⟩ := exec_spec g h hlast
  rw [priorities_eq, ← Multiset.coe_nodup, ← Multiset.map_coe] at hnodup
  refine ⟨hinv, ?_, fun q w ↦ hexpected.with_mem hnodup⟩
  rw [priorities_eq, ← Multiset.coe_nodup, ← Multiset.map_coe]
  exact hexpected.with_nodup hnodup

theorem insertsLast_of_correct (g : Growth) {r : PriorityResolver R} (h : Inv r) {call : Call R}
    (hcorrect : Correct r call (r.exec g call)) : r.InsertsLast call := by
  have hlen : ∀ t : PriorityResolver R, (t.contents : Multiset (Int × R)).card = t.resolvers.len :=
    fun t ↦ by rw [Multiset.coe_card, contents, List.length_map, refs, Slice.length_toList]
  have hcard := hlen (r.exec g call)
  have hexpected := hcorrect.contents
  cases call with
  | withResolver p v timeout =>
      by_contra hnot
      obtain ⟨hnotle, hmem⟩ := not_or.mp hnot
      push Not at hnotle
      -- a correct call makes the list at most one longer
      have hgrown := add_overgrows g v timeout true h hnotle fun e he heq ↦
        absurd (heq ▸ List.mem_map_of_mem he) hmem
      rcases hexpected with ⟨v₀, rest, hr, -⟩ | ⟨-, ht⟩
      · have hin : (p, v₀) ∈ (r.contents : Multiset (Int × R)) := hr ▸ Multiset.mem_cons_self ..
        exact hmem (mem_priorities (Multiset.mem_coe.mp hin))
      · rw [ht, Multiset.card_cons, hlen] at hcard
        rw [exec] at hcard
        omega
  | add p v timeout =>
      by_contra hnot
      unfold InsertsLast at hnot
      push Not at hnot
      have hgrown := add_overgrows g v timeout false h hnot fun _ _ _ ↦ rfl
      rw [show ((r.exec g (.add p v timeout)).contents : Multiset (Int × R)) = _ from hexpected,
        Multiset.card_cons, hlen] at hcard
      rw [exec] at hcard
      omega
  | unset p => trivial

theorem inv_new [Inhabited R] : Inv (new : PriorityResolver R) :=
  ⟨List.Pairwise.nil, List.nodup_nil, nofun, Nat.zero_lt_one⟩

theorem correct_iff_insertsLast [Inhabited R] (g : Growth) (calls : List (Call R)) :
    EveryStep (fun r call ↦ some (exec g r call)) (fun r call ↦ Correct r call (r.exec g call))
        calls (new : PriorityResolver R) ↔
      EveryStep (fun r call ↦ some (exec g r call)) InsertsLast calls
        (new : PriorityResolver R) := by
  constructor
  · intro h
    refine h.imp_of_inv (P := Inv) (fun r call t hr hcorrect ht ↦ ?_) inv_new
    have hlast := insertsLast_of_correct g hr hcorrect
    cases ht
    exact ⟨hlast, (exec_spec g hr hlast).1⟩
  · intro h
    refine h.imp_of_inv (P := Inv) (fun r call t hr hlast ht ↦ ?_) inv_new
    cases ht
    obtain ⟨hinv, hexpected⟩ := exec_spec g hr hlast
    exact ⟨.of_expected hinv.sorted hexpected, hinv⟩

/-- Adding priority 3 to a list with priority 5 leaves 5 in the list twice and 3 at its end. -/
theorem with_before_greater :
    let r := (new : PriorityResolver Nat).exec .doubling (.add 5 50 0)
    let t := r.exec .doubling (.withResolver 3 30 0)
    r.contents = [(5, 50)] ∧ t.contents = [(5, 50), (5, 50), (3, 30)] ∧
      ¬ Correct r (.withResolver 3 30 0) t := by
  refine ⟨by decide, by decide, fun h ↦ ?_⟩
  have hsorted := h.sorted
  revert hsorted
  decide

end PriorityResolver

end CommonLib.XDNS.Client
