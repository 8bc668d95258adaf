import CommonLib.XTTLMap.Interleaving
import CommonLib.XTTLMap.Reference

/-!
# The TTL map keeps to its reference

The list of nodes shows the entries of the reference in their order, and each call does to it what
the reference lets happen.
-/

namespace CommonLib.XTTLMap

open CommonLib.Reasoning Recency

variable {K V : Type}

theorem Item.not_expired_iff (item : Item V) (now : Time) :
    ¬item.expired now = true ↔ item.deadline = 0 ∨ now ≤ item.deadline := by
  rw [Item.expired]
  split
  next hzero => simp [hzero]
  next hzero => simp [hzero]

namespace TTLMap

def entry (m : TTLMap K V) (p : Ptr) : K × Item V := ((m.heap p).key, (m.heap p).item)

theorem SameEntries.entry {m m' : TTLMap K V} (h : SameEntries m m') : m'.entry = m.entry := by
  funext p
  rw [TTLMap.entry, TTLMap.entry, h.key, h.item]

variable [DecidableEq K]

/-- The nodes, from `head` by `next` and from `tail` by `prev`, have these entries, and the map has
these nodes. -/
def Shows (m : TTLMap K V) (es : List (K × Item V)) : Prop := ∃ l, Agrees m l ∧ l.map m.entry = es

/-! ## Nodes and entries -/

section Agrees

variable {m : TTLMap K V} {l : List Ptr}

theorem Agrees.lookup_iff (h : Agrees m l) {k : K} {p : Ptr} :
    m.items.lookup k = some p ↔ p ∈ l ∧ (m.heap p).key = k := by
  constructor
  · exact fun hk ↦ ⟨h.holds hk, h.key k p hk⟩
  · rintro ⟨hp, rfl⟩
    exact (h.stored p).mp hp

theorem Agrees.key_inj (h : Agrees m l) {p q : Ptr} (hp : p ∈ l) (hq : q ∈ l)
    (hkey : (m.heap p).key = (m.heap q).key) : p = q := by
  have hp' := h.lookup_iff.mpr ⟨hp, hkey⟩
  exact Option.some.inj (hp'.symm.trans (h.lookup_iff.mpr ⟨hq, rfl⟩))

theorem Agrees.nodup_keys (h : Agrees m l) : (keys (l.map m.entry)).Nodup := by
  rw [keys, List.map_map]
  exact h.linked.nodup.map_on fun p hp q hq hkey ↦ h.key_inj hp hq hkey

theorem Agrees.length_eq (h : Agrees m l) : l.length = m.items.size := by
  have hperm : (keys (l.map m.entry)).Perm m.items.keys := by
    refine (List.perm_ext_iff_of_nodup h.nodup_keys m.items.nodupKeys).mpr fun k ↦ ?_
    change _ ↔ k ∈ m.items.keys
    rw [← AList.mem_keys, ← AList.lookup_isSome, Option.isSome_iff_exists, keys, List.map_map,
      List.mem_map]
    simp only [h.lookup_iff]
    rfl
  rw [GoMap.size_eq_keys, ← hperm.length_eq, keys, List.length_map, List.length_map]

/-- Taking a node out takes its key out. -/
theorem Agrees.map_erase (h : Agrees m l) {p : Ptr} (hp : p ∈ l) :
    (l.erase p).map m.entry = without (l.map m.entry) (m.heap p).key := by
  rw [h.linked.nodup.erase_eq_filter, without, List.filter_map]
  refine congrArg _ (List.filter_congr fun q hq ↦ ?_)
  rw [Bool.eq_iff_iff, bne_iff_ne, Function.comp_apply, decide_eq_true_iff]
  exact not_congr ⟨fun heq ↦ heq ▸ rfl, h.key_inj hq hp⟩

end Agrees

theorem Shows.nodup {m : TTLMap K V} {es : List (K × Item V)} (h : Shows m es) :
    (keys es).Nodup := by
  obtain ⟨l, hl, rfl⟩ := h
  exact hl.nodup_keys

theorem Shows.size {m : TTLMap K V} {es : List (K × Item V)} (h : Shows m es) :
    m.items.size = es.length := by
  obtain ⟨l, hl, rfl⟩ := h
  rw [List.length_map, hl.length_eq]

theorem Shows.peek_eq {m : TTLMap K V} {es : List (K × Item V)} (h : Shows m es) (k : K) :
    m.peek k = find es k := by
  apply Option.ext
  intro item
  rw [find_eq_some_iff h.nodup, peek, Option.map_eq_some_iff]
  obtain ⟨l, hl, rfl⟩ := h
  rw [List.mem_map]
  simp only [hl.lookup_iff, entry, Prod.mk.injEq, and_assoc]

theorem Shows.mem_keys_iff {m : TTLMap K V} {es : List (K × Item V)} (h : Shows m es) {k : K} :
    k ∈ keys es ↔ (m.items.lookup k).isSome := by
  obtain ⟨l, hl, rfl⟩ := h
  rw [Option.isSome_iff_exists, keys, List.map_map, List.mem_map]
  simp only [hl.lookup_iff]
  rfl

theorem Shows.same {m m' : TTLMap K V} {es : List (K × Item V)} (h : Shows m es)
    (hentry : m'.entry = m.entry) (hagrees : ∀ l, Agrees m l → Agrees m' l) : Shows m' es := by
  obtain ⟨l, hl, rfl⟩ := h
  exact ⟨l, hagrees l hl, by rw [hentry]⟩

theorem Shows.startCleanup {m : TTLMap K V} {es : List (K × Item V)} (h : Shows m es)
    (since now : Time) : Shows (m.startCleanup since now).1 es :=
  h.same (startCleanup_same m since now).entry fun _ hl ↦ (startCleanup_frame m since now).1 hl

/-! ## What the calls do to the entries -/

section Calls

variable {m : TTLMap K V} {es : List (K × Item V)} {k : K} {node : Ptr}

theorem detach_entry (m : TTLMap K V) (p : Ptr) : (m.detach p).entry = m.entry :=
  (removeNode_same { m with items := m.items.erase (m.heap p).key } p).entry

theorem Shows.detach (h : Shows m es) (hnode : m.items.lookup k = some node) :
    Shows (m.detach node) (without es k) := by
  obtain ⟨l, hl, rfl⟩ := h
  obtain ⟨hmem, rfl⟩ := hl.lookup_iff.mp hnode
  exact ⟨_, detach_agrees hl hmem, by rw [detach_entry, hl.map_erase hmem]⟩

theorem Shows.touch (h : Shows m es) (hnode : m.items.lookup k = some node) :
    Shows (m.moveToFront node) (apply es (.touch k)) := by
  have hnodup := h.nodup
  obtain ⟨l, hl, rfl⟩ := h
  obtain ⟨hmem, rfl⟩ := hl.lookup_iff.mp hnode
  refine ⟨_, moveToFront_agrees hl hmem, ?_⟩
  rw [(moveToFront_same m node).entry, List.map_cons, hl.map_erase hmem]
  exact (apply_touch_of_mem hnodup (List.mem_map_of_mem hmem)).symm

theorem Shows.put (h : Shows m es) (hnode : m.items.lookup k = some node) (item : Item V) :
    Shows ((m.setItem node item).moveToFront node) (apply es (.put k item)) := by
  obtain ⟨l, hl, rfl⟩ := h
  obtain ⟨hmem, rfl⟩ := hl.lookup_iff.mp hnode
  have hitem := setItem_agrees hl node item
  refine ⟨_, moveToFront_agrees hitem hmem, ?_⟩
  rw [(moveToFront_same _ node).entry, List.map_cons, apply, ← hl.map_erase hmem]
  congr 1
  · simp [entry, setItem]
  · refine List.map_congr_left fun q hq ↦ ?_
    have hne : q ≠ node := ((hl.linked.nodup.mem_erase_iff).mp hq).1
    simp only [entry, setItem, Function.update_of_ne hne]

theorem Shows.insertNew (h : Shows m es) (hnone : m.items.lookup k = none) (value : V)
    (deadline : Time) :
    Shows (m.insertNew k value deadline) (apply es (.put k ⟨value, deadline⟩)) := by
  have hnotin : k ∉ keys es := by
    rw [h.mem_keys_iff, hnone]
    exact Bool.false_ne_true
  obtain ⟨l, hl, rfl⟩ := h
  have halloc := insertNew_allocates m k value deadline
  have hlinked := insertNew_linked m k value deadline hl.linked fun p hp ↦ (hl.allocated p hp).ne
  refine ⟨_, halloc.agrees hl hnone hlinked, ?_⟩
  rw [List.map_cons, apply, without_of_notMem hnotin, entry, halloc.newKey, halloc.newItem]
  refine congrArg _ (List.map_congr_left fun p hp ↦ ?_)
  have hne := (hl.allocated p hp).ne
  rw [entry, entry, halloc.oldKey p hne, halloc.oldItem p hne]

theorem Shows.removeOldest (h : Shows m es) : Shows m.removeOldest es.dropLast := by
  obtain ⟨l, hl, rfl⟩ := h
  rw [TTLMap.removeOldest, hl.tail_eq]
  obtain rfl | ⟨before, last, rfl⟩ := List.eq_nil_or_concat' l
  · exact ⟨[], hl, rfl⟩
  · rw [List.getLast?_concat]
    have herase : (before ++ [last]).erase last = before ++ [] := erase_middle hl.linked.nodup
    refine ⟨_, detach_agrees hl (List.mem_append_right _ List.mem_cons_self), ?_⟩
    rw [detach_entry, herase, List.append_nil, List.map_append, List.map_singleton,
      List.dropLast_concat]

/-- A loop that evicts while there are more than `limit` entries leaves the first `limit`. -/
theorem Shows.evictWhile {cond : TTLMap K V → Bool} {limit : Int} {fuel : Nat} {m' : TTLMap K V}
    (h : Shows m es)
    (hcond : ∀ m', m'.maxSize = m.maxSize → (cond m' = true ↔ limit < m'.items.size))
    (heq : TTLMap.evictWhile cond fuel m = some m') :
    Shows m' (es.take limit.toNat) ∧ m'.maxSize = m.maxSize := by
  induction fuel generalizing m es with
  | zero => cases heq
  | succ fuel ih =>
      rw [TTLMap.evictWhile] at heq
      have hsize := h.size
      have hm := hcond m rfl
      split at heq
      next hc =>
        have hmax : m.removeOldest.maxSize = m.maxSize :=
          h.elim fun l hl ↦ (removeOldest_keeps hl.1).maxSize_eq
        obtain ⟨hshows, hmax'⟩ := ih h.removeOldest (fun m' hm' ↦ hcond m' (hm'.trans hmax)) heq
        refine ⟨?_, hmax'.trans hmax⟩
        -- a negative limit is never reached, but then nothing is left either
        rw [List.dropLast_eq_take, List.take_take] at hshows
        have hle : min limit.toNat (es.length - 1) = limit.toNat := by
          have := hm.mp hc
          omega
        rwa [hle] at hshows
      next hc =>
        cases heq
        have hfits : es.length ≤ limit.toNat := by
          have := mt hm.mpr hc
          omega
        rw [List.take_of_length_le hfits]
        exact ⟨h, rfl⟩

theorem Shows.set {value : V} {deadline since now : Time} {fuel : Nat} {m' : TTLMap K V}
    {spawn : Bool} (h : Shows m es)
    (heq : m.set k value deadline since now fuel = some (m', spawn)) :
    Shows m' (apply (if k ∈ keys es then es else es.take (m.maxSize - 1).toNat)
      (.put k ⟨value, deadline⟩)) ∧ m'.maxSize = m.maxSize := by
  rw [TTLMap.set] at heq
  split at heq
  next node hnode =>
    cases heq
    rw [if_pos (h.mem_keys_iff.mpr (hnode ▸ rfl))]
    exact ⟨h.put hnode _, (moveToFront_same ..).maxSize⟩
  next hnode =>
    have hnotin : k ∉ keys es := by
      rw [h.mem_keys_iff, hnode]
      exact Bool.false_ne_true
    rw [if_neg hnotin]
    obtain ⟨m₁, hevict, hret⟩ := Option.bind_eq_some_iff.mp heq
    have hm' : m' = ((m₁.insertNew k value deadline).startCleanup since now).1 :=
      congrArg Prod.fst (Option.some.inj hret).symm
    have hcond (m' : TTLMap K V) (hm' : m'.maxSize = m.maxSize) :
        decide ((m'.items.size : Int) ≥ m'.maxSize) = true ↔ m.maxSize - 1 < m'.items.size := by
      rw [decide_eq_true_iff, hm']
      omega
    obtain ⟨hshows, hmax⟩ := h.evictWhile hcond hevict
    have hnone : m₁.items.lookup k = none := by
      rw [← Option.not_isSome_iff_eq_none, ← hshows.mem_keys_iff]
      exact fun hmem ↦ hnotin (((List.take_sublist _ es).map _).subset hmem)
    rw [hm']
    refine ⟨(hshows.insertNew hnone value deadline).startCleanup since now, ?_⟩
    rw [(startCleanup_same ..).maxSize, (insertNew_allocates ..).maxSize, hmax]

theorem Shows.delete (h : Shows m es) (since now : Time) :
    Shows (m.delete k since now).1 (without es k) := by
  refine Shows.startCleanup ?_ since now
  split
  next node hnode => exact h.detach hnode
  next hnode =>
    rwa [without_of_notMem]
    rw [h.mem_keys_iff, hnode]
    exact Bool.false_ne_true

theorem delete_maxSize (m : TTLMap K V) (k : K) (since now : Time) :
    (m.delete k since now).1.maxSize = m.maxSize := by
  rw [TTLMap.delete, (startCleanup_same ..).maxSize]
  split
  · exact (detach_frame m _).2.2.2
  · rfl

theorem Shows.resize {maxSize : Int} {fuel : Nat} {m' : TTLMap K V} (h : Shows m es)
    (heq : m.resize maxSize fuel = some m') :
    Shows m' (if maxSize < m.maxSize then es.take maxSize.toNat else es) ∧
      m'.maxSize = maxSize := by
  rw [TTLMap.resize, Option.map_eq_some_iff] at heq
  obtain ⟨m₁, hevict, rfl⟩ := heq
  refine ⟨?_, rfl⟩
  have hshows : Shows m₁ (if maxSize < m.maxSize then es.take maxSize.toNat else es) := by
    split at hevict
    next hlt =>
      rw [if_pos hlt]
      exact (h.evictWhile (fun m' _ ↦ decide_eq_true_iff) hevict).1
    next hge =>
      cases hevict
      rwa [if_neg hge]
  exact hshows.same rfl fun l hl ↦ hl.withSettings ..

theorem Shows.dropExpired (h : Shows m es) (k : K) (now : Time) :
    Shows (m.dropExpired k now) (es.filter fun e ↦ ¬(e.1 = k ∧ e.2.expired now)) := by
  have hitem (e : K × Item V) (he : e ∈ es) (hkey : e.1 = k) : m.peek k = some e.2 := by
    rw [h.peek_eq, find_eq_some_iff h.nodup, ← hkey]
    exact he
  rw [TTLMap.dropExpired]
  cases hnode : m.items.lookup k with
  | none =>
      rw [List.filter_eq_self.mpr]
      · exact h
      · intro e he
        refine decide_eq_true fun hboth ↦ ?_
        have hpeek := hitem e he hboth.1
        rw [peek, hnode] at hpeek
        cases hpeek
  | some node =>
      simp only [peek, hnode, Option.map_some, Option.some.injEq] at hitem
      change Shows (if (m.heap node).item.expired now then m.detach node else m) _
      split_ifs with hexpired
      · have hwithout : es.filter (fun e ↦ ¬(e.1 = k ∧ e.2.expired now)) = without es k := by
          refine List.filter_congr fun e he ↦ decide_eq_decide.mpr (not_congr ?_)
          exact and_iff_left_of_imp fun hkey ↦ hitem e he hkey ▸ hexpired
        rw [hwithout]
        exact h.detach hnode
      · rw [List.filter_eq_self.mpr]
        · exact h
        · intro e he
          refine decide_eq_true fun hboth ↦ hexpired ?_
          rw [hitem e he hboth.1]
          exact hboth.2

theorem Shows.foldl_dropExpired (h : Shows m es) (ks : List K) (now : Time) :
    Shows (ks.foldl (·.dropExpired · now) m) (es.filter fun e ↦ ¬(e.1 ∈ ks ∧ e.2.expired now)) := by
  induction ks generalizing m es with
  | nil => simpa using h
  | cons k ks ih =>
      have hfilter : es.filter (fun e ↦ ¬(e.1 ∈ k :: ks ∧ e.2.expired now)) =
          (es.filter fun e ↦ ¬(e.1 = k ∧ e.2.expired now)).filter
            fun e ↦ ¬(e.1 ∈ ks ∧ e.2.expired now) := by
        rw [List.filter_filter]
        refine List.filter_congr fun e _ ↦ ?_
        rw [← Bool.decide_and, decide_eq_decide, List.mem_cons, or_and_right, not_or, and_comm]
      rw [hfilter]
      exact ih (h.dropExpired k now)

theorem Shows.cleanupExpired (h : Shows m es) (now : Time) (range : MapOrder K) :
    Shows (m.cleanupExpired now range) (es.filter fun e ↦ ¬e.2.expired now) := by
  have hkeys : ∀ e ∈ es, e.2.expired now = true → e.1 ∈ range.order (m.expiredKeys now) := by
    intro e he hexpired
    rw [(range.perm _).mem_iff, expiredKeys, List.mem_map]
    obtain ⟨l, hl, rfl⟩ := h
    obtain ⟨p, hp, rfl⟩ := List.mem_map.mp he
    refine ⟨⟨(m.heap p).key, p⟩, List.mem_filter.mpr ⟨?_, hexpired⟩, rfl⟩
    exact AList.mem_lookup_iff.mp (hl.lookup_iff.mpr ⟨hp, rfl⟩)
  have hdropped := h.foldl_dropExpired (range.order (m.expiredKeys now)) now
  have hfilter : es.filter (fun e ↦ ¬e.2.expired now) = es.filter fun e ↦
      ¬(e.1 ∈ range.order (m.expiredKeys now) ∧ e.2.expired now) := by
    refine List.filter_congr fun e he ↦ decide_eq_decide.mpr (not_congr ?_)
    exact (and_iff_right_of_imp (hkeys e he)).symm
  rw [hfilter]
  exact hdropped.same rfl fun l hl ↦ hl.withSettings ..

theorem Shows.get_of_none (h : Shows m es) {key : K} (hfind : find es key = none) (now : Time) :
    m.get key now = (m, none) := by
  rw [← h.peek_eq, peek, Option.map_eq_none_iff] at hfind
  rw [TTLMap.get, hfind]

theorem Shows.get_of_some (h : Shows m es) {key : K} {item : Item V}
    (hfind : find es key = some item) (now : Time) :
    Shows (m.get key now).1 (if item.expired now then without es key else apply es (.touch key)) ∧
      (m.get key now).2 = (if item.expired now then none else some item.value) ∧
      (m.get key now).1.maxSize = m.maxSize := by
  rw [← h.peek_eq, peek, Option.map_eq_some_iff] at hfind
  obtain ⟨node, hnode, rfl⟩ := hfind
  by_cases hexpired : (m.heap node).item.expired now = true
  · have hget : m.get key now = (m.detach node, none) := by
      simp only [TTLMap.get, TTLMap.dropExpired, hnode, hexpired, if_true]
    rw [hget, if_pos hexpired, if_pos hexpired]
    exact ⟨h.detach hnode, rfl, (detach_frame m node).2.2.2⟩
  · have hget : m.get key now = (m.moveToFront node, some (m.heap node).item.value) := by
      simp only [TTLMap.get, hnode, if_neg hexpired]
    rw [hget, if_neg hexpired, if_neg hexpired]
    exact ⟨h.touch hnode, rfl, (moveToFront_same m node).maxSize⟩

/-- `Get` returns a value exactly when the list has it with a deadline that has not passed. -/
theorem Shows.get_eq_some_iff (h : Shows m es) (key : K) (now : Time) (v : V) :
    (m.get key now).2 = some v ↔
      ∃ deadline, (key, ⟨v, deadline⟩) ∈ es ∧ (deadline = 0 ∨ now ≤ deadline) := by
  simp only [← find_eq_some_iff h.nodup]
  cases hfind : find es key with
  | none => simp [h.get_of_none hfind]
  | some item =>
      rw [(h.get_of_some hfind now).2.1, Option.ite_none_left_eq_some, item.not_expired_iff,
        Option.some.injEq]
      constructor
      · rintro ⟨hvalid, rfl⟩
        exact ⟨item.deadline, rfl, hvalid⟩
      · rintro ⟨deadline, heq, hvalid⟩
        cases heq
        exact ⟨hvalid, rfl⟩

theorem Shows.get_front (h : Shows m es) {key : K} {now : Time} {v : V}
    (hv : (m.get key now).2 = some v) :
    ∃ deadline, Shows (m.get key now).1 ((key, ⟨v, deadline⟩) :: without es key) := by
  obtain ⟨deadline, hmem, hvalid⟩ := (h.get_eq_some_iff key now v).mp hv
  have hshows := (h.get_of_some ((find_eq_some_iff h.nodup).mpr hmem) now).1
  rw [if_neg ((Item.not_expired_iff _ now).mpr hvalid), apply_touch_of_mem h.nodup hmem] at hshows
  exact ⟨deadline, hshows⟩

end Calls

end TTLMap

/-! ## Runs -/

section Runs

open TTLMap

variable [DecidableEq K]

structure Refines (m : TTLMap K V) (r : Reference K V) : Prop where
  shows : Shows m r.entries
  maxSize : m.maxSize = r.maxSize

theorem get_refines {m : TTLMap K V} {r : Reference K V} (h : Refines m r) (key : K) (now : Time) :
    (m.get key now).2 = r.reply (.get key now) ∧
      Refines (m.get key now).1 (r.next (.get key now)) := by
  rw [Reference.reply]
  cases hfind : find r.entries key with
  | none =>
      rw [h.shows.get_of_none hfind now]
      exact ⟨rfl, (r.entries_get_of_none hfind now).symm ▸ h.shows, h.maxSize⟩
  | some item =>
      obtain ⟨hshows, hreply, hmax⟩ := h.shows.get_of_some hfind now
      exact ⟨hreply, (r.entries_get_of_some hfind now).symm ▸ hshows, hmax.trans h.maxSize⟩

theorem exec_refines {fuel : Nat} (op : Op K V) (m : TTLMap K V) (r : Reference K V)
    (reply : Option V) (m' : TTLMap K V) (h : Refines m r)
    (heq : exec fuel op m = .ok (reply, m')) :
    reply = (Reference.exec op r).1 ∧ Refines m' (Reference.exec op r).2 := by
  obtain ⟨l, hl, -⟩ := h.shows
  cases op with
  | set key value deadline since now =>
      simp only [exec] at heq
      split at heq <;> cases heq
      next hset =>
        obtain ⟨hshows, hmax⟩ := h.shows.set hset
        rw [h.maxSize, ← r.entries_set key value deadline since now] at hshows
        exact ⟨rfl, hshows, hmax.trans h.maxSize⟩
  | get key now =>
      cases heq
      exact get_refines h key now
  | delete key since now =>
      cases heq
      refine ⟨rfl, ?_, (delete_maxSize m key since now).trans h.maxSize⟩
      rw [Reference.exec, Reference.entries_next]
      exact h.shows.delete since now
  | resize maxSize =>
      simp only [exec] at heq
      split at heq <;> cases heq
      next hresize =>
        obtain ⟨hshows, hmax⟩ := h.shows.resize hresize
        rw [h.maxSize, ← r.entries_resize maxSize] at hshows
        exact ⟨rfl, hshows, hmax⟩
  | cleanupExpired now range =>
      cases heq
      have hshows := h.shows.cleanupExpired now range
      rw [← r.entries_cleanupExpired now range] at hshows
      refine ⟨rfl, hshows, ?_⟩
      exact (foldl_dropExpired_keeps hl _ now).maxSize_eq.trans h.maxSize

theorem exec_returns {m : TTLMap K V} (h : m.Inv) {op : Op K V} (hop : op.ResizesToPositive)
    {fuel : Nat} (hfuel : m.items.size < fuel) :
    ∃ reply m', exec fuel op m = .ok (reply, m') ∧ m'.Inv := by
  obtain ⟨l, hl⟩ := h.agrees
  cases op with
  | set key value deadline since now =>
      obtain ⟨⟨m', spawn⟩, hset⟩ :=
        Option.isSome_iff_exists.mp (set_returns h key value deadline since now hfuel)
      exact ⟨none, m', by simp only [exec, hset], set_inv h hset⟩
  | get key now =>
      refine ⟨_, _, rfl, ?_⟩
      rw [TTLMap.get]
      split
      · exact h
      next node hnode =>
        split
        · exact (dropExpired_keeps hl key now).inv h
        · exact (moveToFront_keeps hl (hl.holds hnode)).inv h
  | delete key since now => exact ⟨_, _, rfl, delete_inv h key since now⟩
  | resize maxSize =>
      obtain ⟨m', hresize⟩ := Option.isSome_iff_exists.mp (resize_returns h hop hfuel)
      exact ⟨none, m', by simp only [exec, hresize], resize_inv h hop hresize⟩
  | cleanupExpired now range =>
      refine ⟨_, _, rfl, ?_⟩
      have hdropped := (foldl_dropExpired_keeps hl (range.order (m.expiredKeys now)) now).inv h
      obtain ⟨l', hl'⟩ := hdropped.agrees
      exact ⟨⟨l', hl'.withSettings ..⟩, hdropped.size_le, hdropped.maxSize_pos⟩

theorem run_returns {m : TTLMap K V} {r : Reference K V} (h : m.Inv) (hr : Refines m r)
    {ops : List (Op K V)} (hops : ∀ op ∈ ops, op.ResizesToPositive) {fuel : Nat}
    (hfuel : r.entries.length + ops.length < fuel) :
    ∃ replies m', runAll (exec fuel) ops m = .ok (replies, m') := by
  induction ops generalizing m r with
  | nil => exact ⟨[], m, rfl⟩
  | cons op ops ih =>
      rw [List.length_cons] at hfuel
      have hsize : m.items.size < fuel := by
        rw [hr.shows.size]
        omega
      obtain ⟨reply, m', hop, h'⟩ := exec_returns h (hops op List.mem_cons_self) hsize
      have hlength := r.length_next_le op
      obtain ⟨replies, m'', hrest⟩ := ih h' (exec_refines op m r reply m' hr hop).2
        (fun o ho ↦ hops o (List.mem_cons_of_mem op ho)) (by
          change (r.next op).entries.length + ops.length < fuel
          omega)
      exact ⟨_, m'', runAll_cons_eq_ok_iff.mpr ⟨reply, m', replies, hop, hrest, rfl⟩⟩

/-- How a map stands to what has happened, the first thing first. -/
structure Behaves (m : TTLMap K V) (history : List (Happening K (Item V))) : Prop where
  /-- Its nodes have the reference's entries, in their order. -/
  shows : Shows m (after history)
  /-- `Get` returns what was set last, unless it was removed or evicted or has expired. -/
  get : ∀ key now v, (m.get key now).2 = some v ↔
    ∃ deadline, Standing history key ⟨v, deadline⟩ ∧ (deadline = 0 ∨ now ≤ deadline)
  /-- A `Get` that returns something moves the key to the front, and leaves the others in order. -/
  getFront : ∀ key now v, (m.get key now).2 = some v →
    ∃ deadline, Shows (m.get key now).1 ((key, ⟨v, deadline⟩) :: without (after history) key)
  /-- So does `Set`; a new key may leave fewer of the others. -/
  setFront : ∀ key v deadline since now fuel m' spawn,
    m.set key v deadline since now fuel = some (m', spawn) →
      ∃ kept, kept <+: after history ∧ (key ∈ keys (after history) → kept = after history) ∧
        Shows m' ((key, ⟨v, deadline⟩) :: without kept key)
  order : (after history).Pairwise fun e f ↦ MoreRecent history e.1 f.1
  /-- Every eviction was of the least recently touched entry, when there was no room for it. -/
  evicted : ∀ pre key room post, history = pre ++ .evict key room :: post →
    room < (after pre).length ∧ ∃ others item, after pre = others ++ [(key, item)] ∧
      ∀ e ∈ others, MoreRecent pre e.1 key

theorem Refines.behaves {m : TTLMap K V} {r : Reference K V} (h : Refines m r)
    (hevicts : EvictsLast [] r.history) : Behaves m r.history where
  shows := h.shows
  get key now v := by
    rw [h.shows.get_eq_some_iff]
    simp only [Reference.entries, mem_after_iff]
  getFront key now v hv := h.shows.get_front hv
  setFront key v deadline since now fuel m' spawn heq := by
    refine ⟨if key ∈ keys r.entries then r.entries else r.entries.take (m.maxSize - 1).toNat, ?_,
      fun hmem ↦ if_pos hmem, (h.shows.set heq).1⟩
    split
    · exact List.prefix_rfl
    · exact List.take_prefix ..
  order := ordered_after r.history
  evicted pre key room post heq := by
    obtain ⟨⟨item, hlast⟩, hroom⟩ := hevicts pre key room post heq
    obtain ⟨others, hothers⟩ := List.getLast?_eq_some_iff.mp hlast
    refine ⟨hroom, others, item, hothers, fun e he ↦ ?_⟩
    have horder := ordered_after pre
    rw [after, hothers, List.pairwise_append] at horder
    exact horder.2.2 e he (key, item) List.mem_cons_self

theorem new_refines [Inhabited K] [Inhabited V] (maxSize : Int) (now : Time) :
    Refines (.new maxSize now : TTLMap K V) (.new maxSize) :=
  ⟨⟨[], new_agrees maxSize now, rfl⟩, rfl⟩

/-- Calls one after another, with any clock readings, on a new map.  If the limit stays positive they
all return; and whenever they do, they return what the reference returns, and the map behaves as the
list of entries ordered by last touch that the reference has. -/
theorem run_behaves [Inhabited K] [Inhabited V] {maxSize : Int} (hpos : 1 ≤ maxSize) (now : Time)
    (ops : List (Op K V)) (fuel : Nat) :
    ((∀ op ∈ ops, op.ResizesToPositive) → ops.length < fuel →
      ∃ replies m, runAll (exec fuel) ops (.new maxSize now) = .ok (replies, m)) ∧
    ∀ replies m, runAll (exec fuel) ops (.new maxSize now) = .ok (replies, m) →
      replies = (runTotal Reference.exec ops (.new maxSize)).1 ∧
      m.maxSize = (runTotal Reference.exec ops (.new maxSize)).2.maxSize ∧
      Behaves m (runTotal Reference.exec ops (.new maxSize)).2.history := by
  have hnew : Refines (.new maxSize now : TTLMap K V) (.new maxSize) := new_refines maxSize now
  constructor
  · intro hops hfuel
    exact run_returns (init_inv hpos now) hnew hops (by rwa [Nat.add_comm])
  · intro replies m hrun
    obtain ⟨hreplies, hrefines⟩ := runAll_refines exec_refines hnew hrun
    have hnone : EvictsLast ([] : List (K × Item V)) [] :=
      evictsLast_of_not_evict fun _ _ ↦ List.not_mem_nil
    exact ⟨hreplies, hrefines.maxSize, hrefines.behaves (Reference.evictsLast_run ops hnone)⟩

/-- A map with room for two: the third key evicts the second, which the first was touched after. -/
theorem run_behaves_roomForTwo :
    ∃ m : TTLMap Nat Nat,
      runAll (exec 7)
          [.set 1 10 0 0 0, .set 2 20 5 0 0, .get 1 4, .set 3 30 0 0 0, .get 2 4, .get 1 9]
          (.new 2 0) = .ok ([none, none, some 10, none, none, some 10], m) ∧
      Behaves m
        [.put 1 ⟨10, 0⟩, .put 2 ⟨20, 5⟩, .touch 1, .evict 2 1, .put 3 ⟨30, 0⟩, .touch 1] := by
  have hpos : (1 : Int) ≤ 2 := by decide
  obtain ⟨hreturns, hbehaves⟩ := run_behaves (K := Nat) (V := Nat) hpos 0
    [.set 1 10 0 0 0, .set 2 20 5 0 0, .get 1 4, .set 3 30 0 0 0, .get 2 4, .get 1 9] 7
  obtain ⟨replies, m, hrun⟩ := hreturns (by simp [Op.ResizesToPositive]) (by decide)
  obtain ⟨rfl, -, hm⟩ := hbehaves replies m hrun
  exact ⟨m, hrun, hm⟩

end Runs

end CommonLib.XTTLMap
