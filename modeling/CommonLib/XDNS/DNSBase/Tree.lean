import CommonLib.XDNS.DNSBase.Store

/-!
# The table as a tree of names

A name is the list of its labels, the first label first, and its node is found by walking the table
from the last label.  `Tree t nodes cats` says which names have a node and what category column
each one has; inserting and updating a row are an insertion into `nodes` and an update of `cats`.
-/

namespace CommonLib.XDNS.DNSBase

open CommonLib.Reasoning

/-- The parent of the top labels, which has no row of its own. -/
def rootRow : Row := ⟨0, 0, [], none⟩

def Table.node (t : Table) : List GoString → Option Row
  | [] => some rootRow
  | name :: p => (t.node p).bind fun r ↦ t.row name r.id

structure Tree (t : Table) (nodes : Set (List GoString))
    (cats : List GoString → Option GoString) : Prop where
  node_isSome : ∀ p, (t.node p).isSome ↔ p ∈ nodes
  category : ∀ p r, t.node p = some r → r.category = cats p
  absent : ∀ p, p ∉ nodes → cats p = none
  nonempty : ∀ p s, cats p = some s → s ≠ []
  inj : ∀ p q r r', t.node p = some r → t.node q = some r' → r.id = r'.id → p = q
  ids_nodup : (t.map Row.id).Nodup
  ids_pos : ∀ r ∈ t, 0 < r.id
  parent_le : ∀ r ∈ t, r.parentId ≤ t.maxId

variable {t : Table} {nodes : Set (List GoString)} {cats : List GoString → Option GoString}
  {p : List GoString} {r : Row}

theorem id_le_maxId (hr : r ∈ t) : r.id ≤ t.maxId := by
  unfold Table.maxId
  induction t with
  | nil => cases hr
  | cons r' t ih =>
      rw [List.map_cons, List.foldr_cons]
      rcases List.mem_cons.mp hr with rfl | hr
      · exact le_max_left ..
      · exact (ih hr).trans (le_max_right ..)

/-- A new row gets an id of its own. -/
theorem nodup_ids_concat (h : (t.map Row.id).Nodup) (pid : Nat) (name : GoString)
    (c : Option GoString) : (List.map Row.id (t ++ [⟨t.maxId + 1, pid, name, c⟩])).Nodup := by
  rw [List.map_append, List.map_singleton, List.nodup_append]
  refine ⟨h, List.nodup_singleton _, fun i hi j hj ↦ ?_⟩
  obtain ⟨r', hr', rfl⟩ := List.mem_map.mp hi
  rw [List.mem_singleton.mp hj]
  exact (Nat.lt_succ_of_le (id_le_maxId hr')).ne

theorem row_mem {name : GoString} {pid : Nat} (h : t.row name pid = some r) :
    r ∈ t ∧ r.name = name ∧ r.parentId = pid := by
  have hr := List.find?_some h
  simp only [decide_eq_true_eq] at hr
  exact ⟨List.mem_of_find?_eq_some h, hr⟩

theorem node_mem (hp : p ≠ []) (h : t.node p = some r) : r ∈ t := by
  cases p with
  | nil => exact absurd rfl hp
  | cons name p =>
      obtain ⟨parent, -, hrow⟩ := Option.bind_eq_some_iff.mp h
      exact (row_mem hrow).1

theorem node_id_le (h : t.node p = some r) : r.id ≤ t.maxId := by
  cases p with
  | nil =>
      cases h
      exact Nat.zero_le _
  | cons name p => exact id_le_maxId (node_mem (List.cons_ne_nil _ _) h)

theorem node_isSome_of_suffix {q : List GoString} (hp : (t.node p).isSome) (hq : q <:+ p) :
    (t.node q).isSome := by
  induction p with
  | nil => rwa [List.suffix_nil.mp hq]
  | cons name p ih =>
      rcases List.suffix_cons_iff.mp hq with rfl | hq
      · exact hp
      · obtain ⟨r, hr⟩ := Option.isSome_iff_exists.mp hp
        obtain ⟨parent, hparent, -⟩ := Option.bind_eq_some_iff.mp hr
        exact ih (by rw [hparent]; rfl) hq

/-- Below a name without a node there are none. -/
theorem not_suffix_of_missing {q : List GoString} (hnone : t.node q = none)
    (hp : (t.node p).isSome) : ¬ q <:+ p := by
  intro hq
  have hsome := node_isSome_of_suffix hp hq
  rw [hnone] at hsome
  cases hsome

theorem Tree.mem_of_suffix (h : Tree t nodes cats) {q : List GoString} (hp : p ∈ nodes)
    (hq : q <:+ p) : q ∈ nodes := by
  rw [← h.node_isSome] at hp ⊢
  exact node_isSome_of_suffix hp hq

theorem empty_tree : Tree [] {[]} fun _ ↦ none where
  node_isSome p := by
    cases p with
    | nil => exact iff_of_true rfl rfl
    | cons name p =>
        apply iff_of_false
        · unfold Table.node
          cases Table.node [] p <;> simp [Table.row]
        · exact List.cons_ne_nil _ _
  category p r hr := by
    cases p with
    | nil => cases hr; rfl
    | cons name p => cases node_mem (List.cons_ne_nil _ _) hr
  absent _ _ := rfl
  nonempty _ _ h := nomatch h
  inj p q r r' hp hq _ := by
    cases p with
    | cons name p => cases node_mem (List.cons_ne_nil _ _) hp
    | nil =>
        cases q with
        | cons name q => cases node_mem (List.cons_ne_nil _ _) hq
        | nil => rfl
  ids_nodup := List.nodup_nil
  ids_pos _ hr := nomatch hr
  parent_le _ hr := nomatch hr

/-! ## Inserting a row -/

theorem row_append (t : Table) (new : Row) (name : GoString) (pid : Nat) :
    Table.row (t ++ [new]) name pid =
      (t.row name pid).or (if new.name = name ∧ new.parentId = pid then some new else none) := by
  unfold Table.row
  rw [List.find?_append, List.find?_singleton]
  simp only [decide_eq_true_eq]

/-- A row under the node of `p`, with an id that nothing refers to yet, adds one node. -/
theorem node_append (hle : ∀ r ∈ t, r.parentId ≤ t.maxId)
    (hinj : ∀ p q r r', t.node p = some r → t.node q = some r' → r.id = r'.id → p = q)
    {name : GoString} (hr : t.node p = some r) (hrow : t.row name r.id = none)
    (c : Option GoString) (q : List GoString) :
    Table.node (t ++ [⟨t.maxId + 1, r.id, name, c⟩]) q =
      if q = name :: p then some ⟨t.maxId + 1, r.id, name, c⟩ else t.node q := by
  have hnone : t.node (name :: p) = none := by
    unfold Table.node
    rw [hr]
    exact hrow
  induction q with
  | nil => rfl
  | cons name' q ih =>
      unfold Table.node
      rw [ih]
      by_cases hq : q = name :: p
      · -- Nothing is below the new row.
        subst hq
        rw [if_pos rfl, if_neg (fun heq ↦ by simpa using congrArg List.length heq), hnone]
        change Table.row _ name' (t.maxId + 1) = none
        have hid := node_id_le hr
        rw [row_append, if_neg (fun hand ↦ by have := hand.2; dsimp only at this; omega),
          Option.or_none]
        cases hfind : t.row name' (t.maxId + 1) with
        | none => rfl
        | some r' =>
            obtain ⟨hmem, -, hparent⟩ := row_mem hfind
            have := hle r' hmem
            omega
      · rw [if_neg hq]
        cases hnode : t.node q with
        | none =>
            rw [if_neg]
            · rfl
            · rintro ⟨⟩
              rw [hnode] at hr
              cases hr
        | some r' =>
            change Table.row _ name' r'.id = _
            rw [row_append]
            by_cases hnew : name' :: q = name :: p
            · obtain ⟨rfl, rfl⟩ := List.cons.inj hnew
              rw [hnode] at hr
              cases hr
              rw [hrow, if_pos rfl, if_pos ⟨rfl, rfl⟩, Option.none_or]
            · rw [if_neg hnew, if_neg, Option.or_none]
              · rfl
              · rintro ⟨rfl, hid⟩
                exact hnew (by rw [hinj q p r' r hnode hr hid.symm])

theorem Tree.node_append (h : Tree t nodes cats) {name : GoString} (hr : t.node p = some r)
    (hrow : t.row name r.id = none) (c : Option GoString) (q : List GoString) :
    Table.node (t ++ [⟨t.maxId + 1, r.id, name, c⟩]) q =
      if q = name :: p then some ⟨t.maxId + 1, r.id, name, c⟩ else t.node q :=
  DNSBase.node_append h.parent_le h.inj hr hrow c q

theorem maxId_append (t : Table) (new : Row) :
    Table.maxId (t ++ [new]) = max t.maxId new.id := by
  unfold Table.maxId
  induction t with
  | nil => simp
  | cons r t ih =>
      rw [List.cons_append, List.map_cons, List.foldr_cons, ih, List.map_cons, List.foldr_cons,
        max_assoc]

/-- The new id is above every id that was there. -/
theorem Tree.insert_inj (h : Tree t nodes cats) {name : GoString} (hr : t.node p = some r)
    (hrow : t.row name r.id = none) {c : Option GoString} {q q' : List GoString} {r₁ r₂ : Row}
    (hq : Table.node (t ++ [⟨t.maxId + 1, r.id, name, c⟩]) q = some r₁)
    (hq' : Table.node (t ++ [⟨t.maxId + 1, r.id, name, c⟩]) q' = some r₂) (hid : r₁.id = r₂.id) :
    q = q' := by
  rw [h.node_append hr hrow] at hq hq'
  by_cases heq : q = name :: p <;> by_cases heq' : q' = name :: p
  · rw [heq, heq']
  · rw [if_pos heq] at hq
    rw [if_neg heq'] at hq'
    cases hq
    have hle := node_id_le hq'
    dsimp only at hid
    omega
  · rw [if_neg heq] at hq
    rw [if_pos heq'] at hq'
    cases hq'
    have hle := node_id_le hq
    dsimp only at hid
    omega
  · rw [if_neg heq] at hq
    rw [if_neg heq'] at hq'
    exact h.inj q q' r₁ r₂ hq hq' hid

theorem Tree.insert (h : Tree t nodes cats) {name : GoString} (hr : t.node p = some r)
    (hrow : t.row name r.id = none) {c : Option GoString} (hc : ∀ s, c = some s → s ≠ []) :
    Tree (t ++ [⟨t.maxId + 1, r.id, name, c⟩]) (Insert.insert (name :: p) nodes)
      (Function.update cats (name :: p) c) where
  node_isSome q := by
    rw [h.node_append hr hrow, Set.mem_insert_iff, ← h.node_isSome]
    by_cases hq : q = name :: p <;> simp [hq]
  category q r' hq := by
    rw [h.node_append hr hrow] at hq
    by_cases heq : q = name :: p
    · rw [if_pos heq] at hq
      cases hq
      rw [heq, Function.update_self]
    · rw [if_neg heq] at hq
      rw [Function.update_of_ne heq, h.category q r' hq]
  absent q hq := by
    rw [Set.mem_insert_iff, not_or] at hq
    rw [Function.update_of_ne hq.1, h.absent q hq.2]
  nonempty q s hs := by
    by_cases heq : q = name :: p
    · rw [heq, Function.update_self] at hs
      exact hc s hs
    · rw [Function.update_of_ne heq] at hs
      exact h.nonempty q s hs
  inj _ _ _ _ := h.insert_inj hr hrow
  ids_nodup := nodup_ids_concat h.ids_nodup ..
  ids_pos r' hr' := by
    rcases List.mem_append.mp hr' with hr' | hr'
    · exact h.ids_pos r' hr'
    · rw [List.mem_singleton.mp hr']
      exact Nat.succ_pos _
  parent_le r' hr' := by
    have hmax : Table.maxId (t ++ [⟨t.maxId + 1, r.id, name, c⟩]) = t.maxId + 1 := by
      rw [maxId_append]
      dsimp only
      omega
    rw [hmax]
    rcases List.mem_append.mp hr' with hr' | hr'
    · exact (h.parent_le r' hr').trans (Nat.le_succ _)
    · rw [List.mem_singleton.mp hr']
      exact (node_id_le hr).trans (Nat.le_succ _)

/-! ## Updating a row -/

theorem setCategory_id (id : Nat) (c : Option GoString) (r : Row) : (setCategory id c r).id = r.id := by
  unfold setCategory
  split <;> rfl

theorem setCategory_parentId (id : Nat) (c : Option GoString) (r : Row) :
    (setCategory id c r).parentId = r.parentId := by
  unfold setCategory
  split <;> rfl

theorem row_setCategory (t : Table) (id : Nat) (c : Option GoString) (name : GoString) (pid : Nat) :
    Table.row (t.map (setCategory id c)) name pid = (t.row name pid).map (setCategory id c) := by
  unfold Table.row
  rw [List.find?_map]
  congr 2
  funext r
  simp only [Function.comp_apply, setCategory]
  split <;> rfl

theorem node_setCategory (t : Table) {id : Nat} (hid : id ≠ 0) (c : Option GoString)
    (q : List GoString) :
    Table.node (t.map (setCategory id c)) q = (t.node q).map (setCategory id c) := by
  induction q with
  | nil =>
      have hroot : setCategory id c rootRow = rootRow := if_neg hid.symm
      simp [Table.node, hroot]
  | cons name q ih =>
      unfold Table.node
      rw [ih]
      cases t.node q with
      | none => rfl
      | some r =>
          change Table.row _ name (setCategory id c r).id = _
          rw [setCategory_id, row_setCategory]
          rfl

theorem ids_setCategory (t : Table) (id : Nat) (c : Option GoString) :
    (t.map (setCategory id c)).map Row.id = t.map Row.id := by
  rw [List.map_map]
  exact List.map_congr_left fun r _ ↦ setCategory_id id c r

theorem Tree.id_ne_zero (h : Tree t nodes cats) (hp : p ≠ []) (hr : t.node p = some r) :
    r.id ≠ 0 :=
  (h.ids_pos r (node_mem hp hr)).ne'

theorem Tree.update (h : Tree t nodes cats) (hp : p ≠ []) (hr : t.node p = some r) {s : GoString}
    (hs : s ≠ []) :
    Tree (t.map (setCategory r.id (some s))) nodes (Function.update cats p (some s)) where
  node_isSome q := by
    rw [node_setCategory t (h.id_ne_zero hp hr), Option.isSome_map]
    exact h.node_isSome q
  category q r' hq := by
    rw [node_setCategory t (h.id_ne_zero hp hr)] at hq
    obtain ⟨r₀, hr₀, rfl⟩ := Option.map_eq_some_iff.mp hq
    by_cases heq : q = p
    · subst heq
      rw [hr] at hr₀
      cases hr₀
      rw [Function.update_self, setCategory, if_pos rfl]
    · -- the row of another name has another id
      rw [Function.update_of_ne heq, setCategory, if_neg]
      · exact h.category q r₀ hr₀
      · exact fun hsame ↦ heq (h.inj q p r₀ r hr₀ hr hsame)
  absent q hq := by
    have hne : q ≠ p := by
      rintro rfl
      exact hq ((h.node_isSome q).mp (by rw [hr]; rfl))
    rw [Function.update_of_ne hne, h.absent q hq]
  nonempty q s' hs' := by
    by_cases heq : q = p
    · rw [heq, Function.update_self] at hs'
      cases hs'
      exact hs
    · rw [Function.update_of_ne heq] at hs'
      exact h.nonempty q s' hs'
  inj q q' r₁ r₂ hq hq' hid := by
    rw [node_setCategory t (h.id_ne_zero hp hr)] at hq hq'
    obtain ⟨r₀, hr₀, rfl⟩ := Option.map_eq_some_iff.mp hq
    obtain ⟨r₀', hr₀', rfl⟩ := Option.map_eq_some_iff.mp hq'
    rw [setCategory_id, setCategory_id] at hid
    exact h.inj q q' r₀ r₀' hr₀ hr₀' hid
  ids_nodup := by
    rw [ids_setCategory]
    exact h.ids_nodup
  ids_pos r' hr' := by
    obtain ⟨r₀, hr₀, rfl⟩ := List.mem_map.mp hr'
    rw [setCategory_id]
    exact h.ids_pos r₀ hr₀
  parent_le r' hr' := by
    obtain ⟨r₀, hr₀, rfl⟩ := List.mem_map.mp hr'
    rw [setCategory_parentId, Table.maxId, ids_setCategory]
    exact h.parent_le r₀ hr₀

/-! ## Writing a name -/

theorem scan_isSome {c : Option GoString} (hc : ∀ s, c = some s → s ≠ []) :
    (Categories.scan c).isSome = c.isSome := by
  cases c with
  | none => rfl
  | some s =>
      have hlen : s.length > 0 := List.length_pos_of_ne_nil (hc s rfl)
      simp [Categories.scan, hlen]

/-- The child of the node of `p`, as the writer and the reader look it up. -/
theorem Tree.lookupRecord_eq (h : Tree t nodes cats) (hr : t.node p = some r) (name : GoString) :
    lookupRecord t name r.id =
      (t.node (name :: p)).map fun r' ↦ ⟨r'.id, r.id, name, Categories.scan (cats (name :: p))⟩ := by
  have hnode : t.node (name :: p) = t.row name r.id := by
    rw [Table.node, hr]
    rfl
  unfold lookupRecord
  rw [← hnode]
  cases hchild : t.node (name :: p) with
  | none => rfl
  | some r' => rw [Option.map_some, Option.map_some, h.category _ r' hchild]

def noFaults : Nat → Bool := fun _ ↦ false

/-- A label whose node is there is passed, unless it is the name's last and already has a rule. -/
theorem Tree.writeLoop_pass (h : Tree t nodes cats) (domain : GoString) (newCats : Categories)
    {name : GoString} {rest : List GoString} {r' : Row} (k : Nat) (hr : t.node p = some r)
    (hchild : t.node (name :: p) = some r') (hcats : rest = [] → cats (name :: p) = none) :
    writeLoop noFaults domain newCats (name :: rest) k t r.id =
      writeLoop noFaults domain newCats rest (k + 1) t r'.id := by
  rw [writeLoop, h.lookupRecord_eq hr, hchild]
  simp only [noFaults, Bool.false_eq_true, if_false, Option.map_some]
  rw [if_neg]
  rintro ⟨hnil, hchildren⟩
  change (Categories.scan _).isSome = true at hchildren
  rw [scan_isSome (h.nonempty _), hcats hnil] at hchildren
  cases hchildren

/-- A rule that is there already is reached and refused. -/
theorem writeLoop_exists (h : Tree t nodes cats) (domain : GoString) (newCats : Categories)
    (rest : List GoString) (hrest : rest ≠ []) (k : Nat) (hr : t.node p = some r)
    (hcats : (cats (rest.reverse ++ p)).isSome) :
    writeLoop noFaults domain newCats rest k t r.id = .error (.alreadyExists domain) := by
  induction rest generalizing p r k with
  | nil => exact absurd rfl hrest
  | cons name rest ih =>
      rw [List.reverse_cons, List.append_assoc, List.singleton_append] at hcats
      have hmem : name :: p ∈ nodes := by
        by_contra hnot
        have hfull : rest.reverse ++ name :: p ∉ nodes := fun hin ↦
          hnot (h.mem_of_suffix hin (List.suffix_append ..))
        rw [h.absent _ hfull] at hcats
        cases hcats
      obtain ⟨r', hr'⟩ := Option.isSome_iff_exists.mp ((h.node_isSome _).mpr hmem)
      by_cases hnil : rest = []
      · subst hnil
        rw [writeLoop, h.lookupRecord_eq hr, hr']
        simp only [noFaults, Bool.false_eq_true, if_false, Option.map_some]
        rw [if_pos]
        refine ⟨trivial, ?_⟩
        change (Categories.scan _).isSome = true
        rw [scan_isSome (h.nonempty _)]
        exact hcats
      · rw [h.writeLoop_pass domain newCats k hr hr' (fun hrest ↦ absurd hrest hnil)]
        exact ih hnil (k + 1) hr' hcats

theorem reverse_append_ne {rest : List GoString} (h : rest ≠ []) (q : List GoString) :
    rest.reverse ++ q ≠ q := by
  rw [Ne, List.append_left_eq_self, List.reverse_eq_nil_iff]
  exact h

/-- A label whose node is missing gets one.  Only the last label of a name gets the categories. -/
theorem Tree.writeLoop_insert (h : Tree t nodes cats) (domain : GoString) {newCats : Categories}
    (hnew : ∀ s, newCats.value = some s → s ≠ []) {name : GoString} (rest : List GoString)
    (k : Nat) (hr : t.node p = some r) (hchild : t.node (name :: p) = none) :
    ∃ t' r' c, writeLoop noFaults domain newCats (name :: rest) k t r.id =
        writeLoop noFaults domain newCats rest (k + 2) t' r'.id ∧
      t'.node (name :: p) = some r' ∧
      Tree t' (Insert.insert (name :: p) nodes) (Function.update cats (name :: p) c) ∧
      (rest ≠ [] → c = none) := by
  have hrow : t.row name r.id = none := by
    rw [Table.node, hr] at hchild
    exact hchild
  let c := (if rest = [] then newCats else []).value
  have hinner : rest ≠ [] → c = none := by
    intro hnil
    simp only [c, if_neg hnil]
    rfl
  have hc : ∀ s, c = some s → s ≠ [] := by
    intro s hs
    by_cases hnil : rest = []
    · exact hnew s (by simpa [c, hnil] using hs)
    · cases (hinner hnil).symm.trans hs
  have hnode := h.node_append hr hrow c (name :: p)
  rw [if_pos rfl] at hnode
  refine ⟨_, _, c, ?_, hnode, h.insert hr hrow hc, hinner⟩
  rw [writeLoop, h.lookupRecord_eq hr, hchild]
  simp [noFaults, insertRecord, hrow, c]

/-- Otherwise the loop ends at the node of the whole name and has changed no other rule. -/
theorem writeLoop_ok (h : Tree t nodes cats) (domain : GoString) {newCats : Categories}
    (hnew : ∀ s, newCats.value = some s → s ≠ []) (rest : List GoString) (k : Nat)
    (hr : t.node p = some r) (hcats : rest = [] ∨ cats (rest.reverse ++ p) = none) :
    ∃ t' r' k' cats', writeLoop noFaults domain newCats rest k t r.id = .ok (t', r'.id, k') ∧
      t'.node (rest.reverse ++ p) = some r' ∧
      Tree t' (nodes ∪ {q | q <:+ rest.reverse ++ p}) cats' ∧
      ∀ q, q ≠ rest.reverse ++ p → cats' q = cats q := by
  induction rest generalizing t p r k nodes cats with
  | nil =>
      have hsame : nodes ∪ {q | q <:+ p} = nodes := by
        apply Set.union_eq_self_of_subset_right
        have hp : p ∈ nodes := (h.node_isSome p).mp (by rw [hr]; rfl)
        exact fun q hq ↦ h.mem_of_suffix hp hq
      refine ⟨t, r, k, cats, rfl, hr, ?_, fun _ _ ↦ rfl⟩
      rw [List.reverse_nil, List.nil_append, hsame]
      exact h
  | cons name rest ih =>
      have hcats' := hcats.resolve_left (List.cons_ne_nil _ _)
      rw [List.reverse_cons, List.append_assoc, List.singleton_append] at hcats' ⊢
      have hsuffix : name :: p <:+ rest.reverse ++ name :: p := List.suffix_append ..
      cases hchild : t.node (name :: p) with
      | none =>
          obtain ⟨t₁, r₁, c, hstep, hr₁, htree, hinner⟩ :=
            h.writeLoop_insert domain hnew rest k hr hchild
          have hfull : rest = [] ∨
              Function.update cats (name :: p) c (rest.reverse ++ name :: p) = none := by
            by_cases hnil : rest = []
            · exact .inl hnil
            · exact .inr (by rw [Function.update_of_ne (reverse_append_ne hnil _), hcats'])
          obtain ⟨t', r', k', cats', hloop, hr', htree', hother⟩ := ih htree (k + 2) hr₁ hfull
          refine ⟨t', r', k', cats', hstep.trans hloop, hr', ?_, fun q hq ↦ ?_⟩
          · have hin : name :: p ∈ nodes ∪ {q | q <:+ rest.reverse ++ name :: p} := .inr hsuffix
            rw [Set.insert_union, Set.insert_eq_of_mem hin] at htree'
            exact htree'
          · rw [hother q hq]
            by_cases heq : q = name :: p
            · -- the new row is an inner label, and inner labels have no category
              have hnil : rest ≠ [] := by
                rintro rfl
                exact hq heq
              have habsent : name :: p ∉ nodes := by
                rw [← h.node_isSome, hchild]
                exact Bool.false_ne_true
              rw [heq, Function.update_self, h.absent _ habsent]
              exact hinner hnil
            · rw [Function.update_of_ne heq]
      | some r₁ =>
          have hlast : rest = [] → cats (name :: p) = none := by
            rintro rfl
            exact hcats'
          obtain ⟨t', r', k', cats', hloop, hr', htree', hother⟩ := ih h (k + 1) hchild (.inr hcats')
          have hstep := h.writeLoop_pass domain newCats k hr hchild hlast
          exact ⟨t', r', k', cats', hstep.trans hloop, hr', htree', hother⟩

theorem updateRecordCategories_of_mem (hnodup : (t.map Row.id).Nodup) (hmem : r ∈ t)
    (hid : r.id ≠ 0) {newCats : Categories} (hne : newCats ≠ []) (failed : Bool) :
    updateRecordCategories t r.id newCats failed =
      .ok (if failed then .error .update else .ok (t.map (setCategory r.id newCats.value))) := by
  have hcount : t.countP (fun r' ↦ r'.id = r.id) = 1 := by
    have hone := List.count_eq_one_of_mem hnodup (List.mem_map_of_mem hmem)
    rw [List.count_eq_countP, List.countP_map] at hone
    rw [← hone]
    congr 1
  cases failed <;> simp [updateRecordCategories, hid, hne, hcount]

theorem write_eq {domain d : GoString} (hd : normalizeDomain domain = .ok d)
    (hvalid : validateDomain (d.split dot) = none) {newCats : Categories} (hne : newCats ≠ [])
    (t : Table) :
    write noFaults t domain newCats =
      match writeLoop noFaults d newCats (d.split dot).reverse 1 t 0 with
      | .error err => .ok (some err, t)
      | .ok (written, parentID, _) => do
          match ← updateRecordCategories written parentID newCats false with
          | .error err => return (some err, t)
          | .ok updated => return (none, updated) := by
  unfold write
  rw [hd]
  dsimp only [bind, Except.bind]
  rw [hvalid]
  simp only [List.length_eq_zero_iff, hne, if_false]
  rfl

/-- One rule written without faults: refused if it is there, and stored with its categories if
not. -/
theorem Tree.write_spec (h : Tree t nodes cats) {domain d : GoString}
    (hd : normalizeDomain domain = .ok d) (hvalid : validateDomain (d.split dot) = none)
    {newCats : Categories} {s : GoString} (hs : newCats.value = some s) (hsne : s ≠ []) :
    ((cats (d.split dot)).isSome →
      write noFaults t domain newCats = .ok (some (.alreadyExists d), t)) ∧
    (cats (d.split dot) = none → ∃ t', write noFaults t domain newCats = .ok (none, t') ∧
      Tree t' (nodes ∪ {q | q <:+ d.split dot}) (Function.update cats (d.split dot) (some s))) := by
  have hne : newCats ≠ [] := by
    rintro rfl
    cases hs
  have hroot : t.node [] = some rootRow := rfl
  have hfull : (d.split dot).reverse.reverse ++ [] = d.split dot := by simp
  have hparts : d.split dot ≠ [] := by
    intro hnil
    rw [hnil] at hvalid
    cases hvalid
  constructor
  · intro hsome
    have hloop : writeLoop noFaults d newCats (d.split dot).reverse 1 t 0 =
        .error (.alreadyExists d) :=
      writeLoop_exists h d newCats _ (by simpa using hparts) 1 hroot (by rw [hfull]; exact hsome)
    rw [write_eq hd hvalid hne, hloop]
  · intro hnone
    obtain ⟨t', r', k', cats', hloop, hr', htree, hother⟩ := writeLoop_ok h d
      (fun s' hs' ↦ by rw [hs] at hs'; cases hs'; exact hsne) (d.split dot).reverse 1 hroot
      (.inr (by rw [hfull]; exact hnone))
    rw [hfull] at hr' htree hother
    replace hloop : writeLoop noFaults d newCats (d.split dot).reverse 1 t 0 =
      .ok (t', r'.id, k') := hloop
    refine ⟨t'.map (setCategory r'.id (some s)), ?_, ?_⟩
    · rw [write_eq hd hvalid hne, hloop]
      change (updateRecordCategories t' r'.id newCats false >>= _) = _
      rw [updateRecordCategories_of_mem htree.ids_nodup (node_mem hparts hr')
        (htree.id_ne_zero hparts hr') hne, hs]
      rfl
    · have hupdate := htree.update hparts hr' hsne
      have hcats : Function.update cats' (d.split dot) (some s) =
          Function.update cats (d.split dot) (some s) := by
        funext q
        by_cases hq : q = d.split dot
        · rw [hq, Function.update_self, Function.update_self]
        · rw [Function.update_of_ne hq, Function.update_of_ne hq, hother q hq]
      rw [hcats] at hupdate
      exact hupdate

end CommonLib.XDNS.DNSBase
