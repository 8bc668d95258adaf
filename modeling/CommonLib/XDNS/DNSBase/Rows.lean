import CommonLib.XDNS.DNSBase.Matching

/-!
# The table under writes and deletions

A deletion takes one row out and leaves the rows below it without a parent, so the table is no longer
a tree.  What stays true of it is `Linked`: the id of a row is above the id it names as its parent.
A new row gets an id above all others, so no row that is left behind can have it as its parent.
-/

namespace CommonLib.XDNS.DNSBase

open CommonLib.Reasoning

structure Linked (t : Table) : Prop where
  ids_nodup : (t.map Row.id).Nodup
  parent_lt : ∀ r ∈ t, r.parentId < r.id
  key_inj : ∀ r ∈ t, ∀ r' ∈ t, r.name = r'.name → r.parentId = r'.parentId → r = r'

variable {t t' : Table} {p q full : List GoString} {r r' : Row}

theorem Linked.empty : Linked [] where
  ids_nodup := List.nodup_nil
  parent_lt _ hr := nomatch hr
  key_inj _ hr := nomatch hr

theorem Linked.parent_le (h : Linked t) (r : Row) (hr : r ∈ t) : r.parentId ≤ t.maxId :=
  (h.parent_lt r hr).le.trans (id_le_maxId hr)

theorem Linked.eq_of_id_eq (h : Linked t) (hr : r ∈ t) (hr' : r' ∈ t) (hid : r.id = r'.id) :
    r = r' :=
  List.inj_on_of_nodup_map h.ids_nodup hr hr' hid

theorem Linked.row_eq_some_iff (h : Linked t) {name : GoString} {pid : Nat} :
    t.row name pid = some r ↔ r ∈ t ∧ r.name = name ∧ r.parentId = pid := by
  constructor
  · exact row_mem
  · rintro ⟨hmem, hname, hpid⟩
    cases hrow : t.row name pid with
    | none =>
        have hnot := List.find?_eq_none.mp hrow r hmem
        simp [hname, hpid] at hnot
    | some r' =>
        obtain ⟨hmem', hname', hpid'⟩ := row_mem hrow
        rw [h.key_inj r hmem r' hmem' (hname.trans hname'.symm) (hpid.trans hpid'.symm)]

theorem node_cons_eq_some_iff {name : GoString} :
    t.node (name :: p) = some r ↔ ∃ parent, t.node p = some parent ∧ t.row name parent.id = some r :=
  Option.bind_eq_some_iff

theorem node_cons_eq {name : GoString} (hr : t.node p = some r) :
    t.node (name :: p) = t.row name r.id := by
  rw [Table.node, hr]
  rfl

theorem Linked.id_pos (h : Linked t) (hp : p ≠ []) (hr : t.node p = some r) : 0 < r.id :=
  (Nat.zero_le _).trans_lt (h.parent_lt r (node_mem hp hr))

/-- A row names its parent, so the ids of two nodes are the same only if their names are. -/
theorem Linked.inj (h : Linked t) (p q : List GoString) (r r' : Row) (hp : t.node p = some r)
    (hq : t.node q = some r') (hid : r.id = r'.id) : p = q := by
  induction p generalizing q r r' with
  | nil =>
      cases hp
      cases q with
      | nil => rfl
      | cons name q => exact absurd hid (h.id_pos (List.cons_ne_nil _ _) hq).ne
  | cons name p ih =>
      cases q with
      | nil =>
          cases hq
          exact absurd hid (h.id_pos (List.cons_ne_nil _ _) hp).ne'
      | cons name' q =>
          obtain ⟨parent, hparent, hrow⟩ := node_cons_eq_some_iff.mp hp
          obtain ⟨parent', hparent', hrow'⟩ := node_cons_eq_some_iff.mp hq
          obtain ⟨hmem, hname, hpid⟩ := row_mem hrow
          obtain ⟨hmem', hname', hpid'⟩ := row_mem hrow'
          have hsame := h.eq_of_id_eq hmem hmem' hid
          rw [← hname, ← hname', hsame]
          rw [hsame] at hpid
          rw [ih q parent parent' hparent hparent' (hpid.symm.trans hpid')]

/-! ## What an operation does to the rows -/

theorem Linked.delete (h : Linked t) (keep : Row → Bool) : Linked (t.filter keep) where
  ids_nodup := h.ids_nodup.sublist (List.filter_sublist.map _)
  parent_lt r hr := h.parent_lt r (List.mem_of_mem_filter hr)
  key_inj r hr r' hr' := h.key_inj r (List.mem_of_mem_filter hr) r' (List.mem_of_mem_filter hr')

/-- Deletions move no node: what is found after them was found before at the same place. -/
theorem Linked.node_of_delete (h : Linked t) {keep : Row → Bool}
    (hr : Table.node (t.filter keep) p = some r) : t.node p = some r := by
  induction p generalizing r with
  | nil => exact hr
  | cons name p ih =>
      obtain ⟨parent, hparent, hrow⟩ := node_cons_eq_some_iff.mp hr
      obtain ⟨hmem, hname, hpid⟩ := row_mem hrow
      rw [node_cons_eq (ih hparent), h.row_eq_some_iff]
      exact ⟨List.mem_of_mem_filter hmem, hname, hpid⟩

theorem Linked.insert (h : Linked t) {name : GoString} (hr : t.node p = some r)
    (hrow : t.row name r.id = none) (c : Option GoString) :
    Linked (t ++ [⟨t.maxId + 1, r.id, name, c⟩]) where
  ids_nodup := nodup_ids_concat h.ids_nodup ..
  parent_lt r' hr' := by
    rcases List.mem_append.mp hr' with hr' | hr'
    · exact h.parent_lt r' hr'
    · rw [List.mem_singleton.mp hr']
      exact Nat.lt_succ_of_le (node_id_le hr)
  key_inj r₁ h₁ r₂ h₂ hname hpid := by
    -- the key of the new row is not in the table
    have hnew : ∀ r' ∈ t, ¬ (r'.name = name ∧ r'.parentId = r.id) := by
      intro r' hr' hkey
      simpa [hkey] using List.find?_eq_none.mp hrow r' hr'
    rcases List.mem_append.mp h₁ with h₁ | h₁ <;> rcases List.mem_append.mp h₂ with h₂ | h₂
    · exact h.key_inj r₁ h₁ r₂ h₂ hname hpid
    · rw [List.mem_singleton.mp h₂] at hname hpid
      exact absurd ⟨hname, hpid⟩ (hnew r₁ h₁)
    · rw [List.mem_singleton.mp h₁] at hname hpid
      exact absurd ⟨hname.symm, hpid.symm⟩ (hnew r₂ h₂)
    · rw [List.mem_singleton.mp h₁, List.mem_singleton.mp h₂]

theorem setCategory_name (id : Nat) (c : Option GoString) (r : Row) :
    (setCategory id c r).name = r.name := by
  unfold setCategory
  split <;> rfl

theorem Linked.update (h : Linked t) (id : Nat) (c : Option GoString) :
    Linked (t.map (setCategory id c)) where
  ids_nodup := by
    rw [ids_setCategory]
    exact h.ids_nodup
  parent_lt r hr := by
    obtain ⟨r₀, hr₀, rfl⟩ := List.mem_map.mp hr
    rw [setCategory_id, setCategory_parentId]
    exact h.parent_lt r₀ hr₀
  key_inj r hr r' hr' hname hpid := by
    obtain ⟨r₀, hr₀, rfl⟩ := List.mem_map.mp hr
    obtain ⟨r₀', hr₀', rfl⟩ := List.mem_map.mp hr'
    rw [setCategory_name, setCategory_name] at hname
    rw [setCategory_parentId, setCategory_parentId] at hpid
    rw [h.key_inj r₀ hr₀ r₀' hr₀' hname hpid]

/-! ## What a `Write` does, whichever statements fail -/

/-- The loop has reached the row `last` of the name `full`: the nodes that were there are as they
were, and those it has added on the way have no categories. -/
structure Grown (t t' : Table) (full : List GoString) (last : Row) : Prop where
  linked : Linked t'
  reached : t'.node full = some last
  kept : ∀ q r, t.node q = some r → t'.node q = some r
  added : ∀ q r, q ≠ full → t'.node q = some r →
    t.node q = some r ∨ t.node q = none ∧ q <:+ full ∧ r.category = none

theorem Grown.insert (h : Linked t) {name : GoString} (hr : t.node p = some r)
    (hrow : t.row name r.id = none) {c : Option GoString} {last : Row}
    (hpre : name :: p <:+ full) (hc : name :: p ≠ full → c = none)
    (hrest : Grown (t ++ [⟨t.maxId + 1, r.id, name, c⟩]) t' full last) : Grown t t' full last where
  linked := hrest.linked
  reached := hrest.reached
  kept q r' hq := by
    apply hrest.kept
    rw [node_append h.parent_le h.inj hr hrow, if_neg]
    · exact hq
    · rintro rfl
      rw [node_cons_eq hr, hrow] at hq
      cases hq
  added q r' hne hq := by
    have hnode := node_append h.parent_le h.inj hr hrow c q
    rcases hrest.added q r' hne hq with hold | ⟨hnone, hsuffix, hcat⟩
    · by_cases heq : q = name :: p
      · subst heq
        rw [hnode, if_pos rfl] at hold
        cases hold
        exact .inr ⟨(node_cons_eq hr).trans hrow, hpre, hc hne⟩
      · rw [hnode, if_neg heq] at hold
        exact .inl hold
    · by_cases heq : q = name :: p
      · rw [hnode, if_pos heq] at hnone
        cases hnone
      · rw [hnode, if_neg heq] at hnone
        exact .inr ⟨hnone, hsuffix, hcat⟩

theorem lookupRecord_eq_some_iff {name : GoString} {pid : Nat} {d : Domain} :
    lookupRecord t name pid = some d ↔
      ∃ r, t.row name pid = some r ∧ d = ⟨r.id, pid, name, Categories.scan r.category⟩ := by
  unfold lookupRecord
  rw [Option.map_eq_some_iff]
  simp only [eq_comm]

theorem lookupRecord_eq_none_iff {name : GoString} {pid : Nat} :
    lookupRecord t name pid = none ↔ t.row name pid = none :=
  Option.map_eq_none_iff

variable {fails : Nat → Bool} {domain : GoString} {cats : Categories}

/-- A round of the loop that goes on has added the row of the label or has found it, and what it
has found at the first label has no rule. -/
theorem writeLoop_cons_inv {name : GoString} {rest : List GoString} {k k' parentID pid : Nat}
    (hok : writeLoop fails domain cats (name :: rest) k t parentID = .ok (t', pid, k')) :
    (t.row name parentID = none ∧
      writeLoop fails domain cats rest (k + 2)
        (t ++ [⟨t.maxId + 1, parentID, name, Categories.value (if rest = [] then cats else [])⟩])
        (t.maxId + 1) = .ok (t', pid, k')) ∨
    ∃ r, t.row name parentID = some r ∧
      (rest = [] → (Categories.scan r.category).isSome = false) ∧
      writeLoop fails domain cats rest (k + 1) t r.id = .ok (t', pid, k') := by
  rw [writeLoop] at hok
  split at hok
  · cases hok
  · cases hrec : lookupRecord t name parentID with
    | none =>
        have hrow := lookupRecord_eq_none_iff.mp hrec
        rw [hrec] at hok
        simp only [insertRecord, hrow, Option.isSome_none, Bool.false_eq_true, if_false] at hok
        split at hok
        · cases hok
        · exact .inl ⟨hrow, hok⟩
    | some d =>
        obtain ⟨r, hrow, rfl⟩ := lookupRecord_eq_some_iff.mp hrec
        rw [hrec] at hok
        dsimp only at hok
        split at hok
        · cases hok
        next hnot =>
          refine .inr ⟨r, hrow, fun hnil ↦ ?_, hok⟩
          rw [← Bool.not_eq_true]
          exact fun hchild ↦ hnot ⟨hnil, hchild⟩

theorem writeLoop_grown {rest : List GoString} {k k' pid : Nat} (h : Linked t)
    (hr : t.node p = some r)
    (hok : writeLoop fails domain cats rest k t r.id = .ok (t', pid, k')) :
    ∃ last, pid = last.id ∧ Grown t t' (rest.reverse ++ p) last := by
  induction rest generalizing t p r k with
  | nil =>
      cases hok
      exact ⟨r, rfl, h, hr, fun _ _ hq ↦ hq, fun _ _ _ hq ↦ .inl hq⟩
  | cons name rest ih =>
      rw [List.reverse_cons, List.append_assoc, List.singleton_append]
      rcases writeLoop_cons_inv hok with ⟨hrow, hok⟩ | ⟨r', hrow, -, hok⟩
      · have hlinked := h.insert hr hrow (Categories.value (if rest = [] then cats else []))
        have hnode := node_append h.parent_le h.inj hr hrow
          (Categories.value (if rest = [] then cats else [])) (name :: p)
        rw [if_pos rfl] at hnode
        obtain ⟨last, rfl, hgrown⟩ := ih hlinked hnode hok
        refine ⟨last, rfl, hgrown.insert h hr hrow (List.suffix_append ..) ?_⟩
        -- a label with another one to its left is written without categories
        intro hne
        rw [if_neg]
        · rfl
        · rintro rfl
          exact hne rfl
      · exact ih h ((node_cons_eq hr).trans hrow) hok

/-- A rule can be read at the node of the name. -/
def Table.hasRule (t : Table) (p : List GoString) : Bool :=
  ((t.node p).bind fun r ↦ Categories.scan r.category).isSome

theorem hasRule_eq (hr : t.node p = some r) :
    t.hasRule p = (Categories.scan r.category).isSome := by
  rw [Table.hasRule, hr]
  rfl

theorem node_append_eq_none (hnone : t.node p = none) (pre : List GoString) :
    t.node (pre ++ p) = none := by
  rw [← Option.not_isSome_iff_eq_none]
  exact fun hsome ↦ not_suffix_of_missing hnone hsome (List.suffix_append pre p)

/-- The loop goes through only if no rule can be read at the name yet. -/
theorem writeLoop_noRule {rest : List GoString} {k k' pid : Nat} (hr : t.node p = some r)
    (hrest : rest ≠ [])
    (hok : writeLoop fails domain cats rest k t r.id = .ok (t', pid, k')) :
    t.hasRule (rest.reverse ++ p) = false := by
  induction rest generalizing t p r k with
  | nil => exact absurd rfl hrest
  | cons name rest ih =>
      rw [List.reverse_cons, List.append_assoc, List.singleton_append]
      rcases writeLoop_cons_inv hok with ⟨hrow, -⟩ | ⟨r', hrow, hlast, hok⟩
      · have hnone := node_append_eq_none ((node_cons_eq hr).trans hrow) rest.reverse
        rw [Table.hasRule, hnone]
        rfl
      · have hchild := (node_cons_eq hr).trans hrow
        by_cases hnil : rest = []
        · subst hnil
          rw [List.reverse_nil, List.nil_append, hasRule_eq hchild]
          exact hlast rfl
        · exact ih hchild hnil hok

/-- The name `full` has the category column `c` now; nothing else has changed but for the nodes
above it, which are there now. -/
structure Wrote (t t' : Table) (full : List GoString) (c : Option GoString) : Prop where
  linked : Linked t'
  last : ∃ r, t'.node full = some r ∧ r.category = c ∧ ∀ r₀, t.node full = some r₀ → r.id = r₀.id
  kept : ∀ q r, q ≠ full → t.node q = some r → t'.node q = some r
  added : ∀ q r, q ≠ full → t'.node q = some r →
    t.node q = some r ∨ t.node q = none ∧ q <:+ full ∧ r.category = none

theorem Grown.update {last : Row} (h : Grown t t' full last) (hfull : full ≠ [])
    (c : Option GoString) : Wrote t (t'.map (setCategory last.id c)) full c := by
  have hid : last.id ≠ 0 := (h.linked.id_pos hfull h.reached).ne'
  have hother : ∀ q r, q ≠ full → t'.node q = some r → setCategory last.id c r = r := by
    intro q r hne hq
    exact if_neg fun hsame ↦ hne (h.linked.inj q full r last hq h.reached hsame)
  refine ⟨h.linked.update _ c, ⟨setCategory last.id c last, ?_, ?_, ?_⟩, ?_, ?_⟩
  · rw [node_setCategory t' hid, h.reached]
    rfl
  · rw [setCategory, if_pos rfl]
  · intro r₀ hr₀
    rw [setCategory_id]
    exact congrArg Row.id (Option.some.inj (h.reached.symm.trans (h.kept full r₀ hr₀)))
  · intro q r hne hq
    have hq' := h.kept q r hq
    rw [node_setCategory t' hid, hq', Option.map_some, hother q r hne hq']
  · intro q r hne hq
    rw [node_setCategory t' hid] at hq
    obtain ⟨r₀, hr₀, rfl⟩ := Option.map_eq_some_iff.mp hq
    rw [hother q r₀ hne hr₀]
    exact h.added q r₀ hne hr₀

theorem updateRecordCategories_eq_ok {id : Nat} {failed : Bool}
    (h : updateRecordCategories t id cats failed = .ok (.ok t')) :
    t' = t.map (setCategory id cats.value) := by
  unfold updateRecordCategories at h
  dsimp only at h
  split_ifs at h
  · cases h
  · cases h
  · cases h
    rfl

/-- A `Write` that changes the table has stored a rule that could not be read before. -/
structure Stored (t t' : Table) (domain : GoString) (cats : Categories) : Prop where
  cats_ne : cats ≠ []
  two_le : 2 ≤ (labels domain).length
  star_first : star ∉ (labels domain).tail
  noRule : t.hasRule (labels domain) = false
  wrote : Wrote t t' (labels domain) cats.value

theorem validateDomain_eq_none_iff {parts : List GoString} :
    validateDomain parts = none ↔ 2 ≤ parts.length ∧ star ∉ parts.tail := by
  unfold validateDomain
  rw [List.drop_one]
  by_cases hlen : parts.length < 2
  · rw [if_pos hlen]
    simp [hlen]
  · rw [if_neg hlen, and_iff_right (Nat.le_of_not_lt hlen)]
    simp

/-- A `Write` that returns an error has rolled back; one that returns nil went through all its
statements, and nobody learns whether the commit failed. -/
theorem write_inv {err : Option WriteError} (hwrite : write fails t domain cats = .ok (err, t')) :
    (err ≠ none ∧ t' = t) ∨ err = none ∧ cats ≠ [] ∧ validateDomain (labels domain) = none ∧
      ∃ d written pid k updated, normalizeDomain domain = .ok d ∧
        writeLoop fails d cats (labels domain).reverse 1 t 0 = .ok (written, pid, k) ∧
        updateRecordCategories written pid cats (fails k) = .ok (.ok updated) ∧
        t' = if fails (k + 1) then t else updated := by
  unfold write at hwrite
  cases hd : normalizeDomain domain with
  | error e =>
      rw [hd] at hwrite
      cases hwrite
  | ok d =>
      have hlabels : labels domain = d.split dot := by
        rw [labels, hd]
      rw [hd] at hwrite
      dsimp only [bind, Except.bind] at hwrite
      rw [← hlabels] at hwrite
      cases hcheck : validateDomain (labels domain) with
      | some e =>
          rw [hcheck] at hwrite
          cases hwrite
          exact .inl ⟨Option.some_ne_none _, rfl⟩
      | none =>
          rw [hcheck] at hwrite
          dsimp only at hwrite
          split at hwrite
          · cases hwrite
            exact .inl ⟨Option.some_ne_none _, rfl⟩
          next hcats =>
            split at hwrite
            · cases hwrite
              exact .inl ⟨Option.some_ne_none _, rfl⟩
            · rcases hloop : writeLoop fails d cats (labels domain).reverse 1 t 0 with
                e | ⟨written, pid, k⟩
              · rw [hloop] at hwrite
                cases hwrite
                exact .inl ⟨Option.some_ne_none _, rfl⟩
              · rw [hloop] at hwrite
                dsimp only at hwrite
                rcases hupdate : updateRecordCategories written pid cats (fails k) with
                  crash | (e | updated)
                · rw [hupdate] at hwrite
                  cases hwrite
                · rw [hupdate] at hwrite
                  cases hwrite
                  exact .inl ⟨Option.some_ne_none _, rfl⟩
                · rw [hupdate] at hwrite
                  cases hwrite
                  exact .inr ⟨rfl, by simpa using hcats, rfl, d, written, pid, k, updated, rfl,
                    hloop, hupdate, rfl⟩

/-- What the statements have done to the table by the commit. -/
theorem Linked.stored (h : Linked t) {d : GoString} {written updated : Table} {pid k : Nat}
    (hcats : cats ≠ []) (hvalid : validateDomain (labels domain) = none)
    (hloop : writeLoop fails d cats (labels domain).reverse 1 t 0 = .ok (written, pid, k))
    (hupdate : updateRecordCategories written pid cats (fails k) = .ok (.ok updated)) :
    Stored t updated domain cats := by
  obtain ⟨htwo, hstar⟩ := validateDomain_eq_none_iff.mp hvalid
  have hroot : t.node [] = some rootRow := rfl
  have hfull : (labels domain).reverse.reverse ++ [] = labels domain := by simp
  have hne : labels domain ≠ [] := by
    intro hnil
    rw [hnil] at htwo
    cases htwo
  have hnoRule := writeLoop_noRule hroot (by simpa using hne) hloop
  obtain ⟨last, rfl, hgrown⟩ := writeLoop_grown h hroot hloop
  rw [hfull] at hnoRule hgrown
  rw [updateRecordCategories_eq_ok hupdate]
  exact ⟨hcats, htwo, hstar, hnoRule, hgrown.update hne cats.value⟩

theorem Linked.write_cases (h : Linked t) {err : Option WriteError}
    (hwrite : write fails t domain cats = .ok (err, t')) :
    t' = t ∨ err = none ∧ Stored t t' domain cats := by
  obtain ⟨-, hsame⟩ | ⟨herr, hcats, hvalid, d, written, pid, k, updated, -, hloop, hupdate, rfl⟩ :=
    write_inv hwrite
  · exact .inl hsame
  · split
    · exact .inl rfl
    · exact .inr ⟨herr, h.stored hcats hvalid hloop hupdate⟩

/-! ## What a `Lookup` reads -/

/-- The domain read from the row of the name `p`. -/
def ReadAt (t : Table) (p : List GoString) (d : Domain) : Prop :=
  ∃ r, t.node p = some r ∧ d.id = r.id ∧ d.categories = Categories.scan r.category

/-- A wildcard of a name above `n`.  The wildcard of all names is never asked for. -/
def WildcardOf (n q : List GoString) : Prop := q ≠ [] ∧ q <:+ n ∧ q ≠ n

/-- The domain answers a lookup of `n` in a table of any shape: it is the rule of `n` itself or,
if `n` has no node, a wildcard above it. -/
inductive Answer (t : Table) (n : List GoString) (d : Domain) : Prop
  | own (hread : ReadAt t n d) (hchild : d.isChild)
  | wildcard (q : List GoString) (hnone : t.node n = none) (hq : WildcardOf n q)
      (hread : ReadAt t (star :: q) d)

theorem wildcardOf_cons {name : GoString} (hp : p ≠ []) :
    WildcardOf (name :: p) q ↔ q = p ∨ WildcardOf p q := by
  unfold WildcardOf
  constructor
  · rintro ⟨hne, hsuffix, hnot⟩
    have hsuffix := (List.suffix_cons_iff.mp hsuffix).resolve_left hnot
    by_cases heq : q = p
    · exact .inl heq
    · exact .inr ⟨hne, hsuffix, heq⟩
  · intro h
    have hsuffix : q ≠ [] ∧ q <:+ p := by
      rcases h with rfl | ⟨hne, hsuffix, -⟩
      · exact ⟨hp, List.suffix_refl _⟩
      · exact ⟨hne, hsuffix⟩
    refine ⟨hsuffix.1, hsuffix.2.trans (List.suffix_cons ..), ?_⟩
    rintro rfl
    have hlen := hsuffix.2.length_le
    rw [List.length_cons] at hlen
    omega

/-- The wildcard the loop holds when it stands at `p`. -/
def Seen (t : Table) (p : List GoString) : Option Domain → Prop
  | none => ∀ q, WildcardOf p q → t.node (star :: q) = none
  | some d => ∃ q, WildcardOf p q ∧ ReadAt t (star :: q) d

theorem lookupRecord_readAt {name : GoString} {d : Domain} (hr : t.node p = some r)
    (hrec : lookupRecord t name r.id = some d) : ReadAt t (name :: p) d := by
  obtain ⟨r', hrow, rfl⟩ := lookupRecord_eq_some_iff.mp hrec
  exact ⟨r', (node_cons_eq hr).trans hrow, rfl, rfl⟩

theorem node_of_lookupRecord {name : GoString} (hr : t.node p = some r)
    (hrec : lookupRecord t name r.id = none) : t.node (name :: p) = none :=
  (node_cons_eq hr).trans (lookupRecord_eq_none_iff.mp hrec)

theorem Seen.step {w : Option Domain} (hp : p ≠ []) (hr : t.node p = some r) (hw : Seen t p w)
    (name : GoString) : Seen t (name :: p) ((lookupRecord t star r.id).or w) := by
  cases hrec : lookupRecord t star r.id with
  | some d => exact ⟨p, (wildcardOf_cons hp).mpr (.inl rfl), lookupRecord_readAt hr hrec⟩
  | none =>
      rw [Option.none_or]
      cases w with
      | some d =>
          obtain ⟨q, hq, hread⟩ := hw
          exact ⟨q, (wildcardOf_cons hp).mpr (.inr hq), hread⟩
      | none =>
          intro q hq
          rcases (wildcardOf_cons hp).mp hq with rfl | hq
          · exact node_of_lookupRecord hr hrec
          · exact hw q hq

/-- What the loop returns is an answer, and it fails only if there is none. -/
def Reads (t : Table) (n : List GoString) : Except LookupError (Domain × List Domain) → Prop
  | .ok found => Answer t n found.1
  | .error _ => ∀ d, ¬ Answer t n d

/-- Where a name has no node, the wildcards of the names below it are above it. -/
theorem wildcardOf_of_missing (hnone : t.node p = none) {pre : List GoString}
    (hq : WildcardOf (pre ++ p) q) (hread : (t.node (star :: q)).isSome) : WildcardOf p q := by
  obtain ⟨hne, hsuffix, -⟩ := hq
  have hnot : ¬ p <:+ q := fun hp ↦
    not_suffix_of_missing hnone hread (hp.trans (List.suffix_cons ..))
  refine ⟨hne, ?_, fun heq ↦ hnot (heq ▸ List.suffix_refl _)⟩
  exact (List.suffix_or_suffix_of_suffix hsuffix (List.suffix_append pre p)).resolve_right hnot

theorem ReadAt.isSome {d : Domain} (h : ReadAt t p d) : (t.node p).isSome := by
  obtain ⟨r, hr, -⟩ := h
  rw [hr]
  rfl

theorem reads_missing (hnone : t.node p = none) (pre : List GoString) {w : Option Domain}
    (hw : Seen t p w) (parents : List Domain) :
    Reads t (pre ++ p) (w.elim (.error .noRows) fun wc ↦ .ok (wc, parents)) := by
  have hfull := node_append_eq_none hnone pre
  cases w with
  | some d =>
      obtain ⟨q, ⟨hne, hsuffix, hnot⟩, hread⟩ := hw
      refine .wildcard q hfull ⟨hne, hsuffix.trans (List.suffix_append ..), ?_⟩ hread
      rintro rfl
      exact hnot (hsuffix.eq_of_length_le (by simp))
  | none =>
      rintro d (⟨hread, -⟩ | ⟨q, -, hq, hread⟩)
      · have hsome := hread.isSome
        rw [hfull] at hsome
        cases hsome
      · have hsome := hread.isSome
        rw [hw q (wildcardOf_of_missing hnone hq hread.isSome)] at hsome
        cases hsome

theorem lookupLoop_reads (rest : List GoString) {parent : Domain} {parents : List Domain}
    {w : Option Domain} (hp : p ≠ []) (hread : ReadAt t p parent) (hw : Seen t p w) :
    Reads t (rest.reverse ++ p) (lookupLoop t rest parent parents w) := by
  induction rest generalizing p parent parents w with
  | nil =>
      rw [List.reverse_nil, List.nil_append, lookupLoop]
      split
      next hchild => exact .own hread hchild
      next hchild =>
        rintro d (⟨⟨r', hr', -, hcat'⟩, hchild'⟩ | ⟨q, hnone, -⟩)
        · obtain ⟨r, hr, -, hcat⟩ := hread
          cases hr.symm.trans hr'
          rw [Domain.isChild, hcat', ← hcat] at hchild'
          exact hchild hchild'
        · have hsome := hread.isSome
          rw [hnone] at hsome
          cases hsome
  | cons name rest ih =>
      obtain ⟨r, hr, hid, hcat⟩ := hread
      have hw' := hw.step hp hr name
      rw [List.reverse_cons, List.append_assoc, List.singleton_append, lookupLoop, hid]
      cases hrec : lookupRecord t name r.id with
      | some d => exact ih (List.cons_ne_nil _ _) (lookupRecord_readAt hr hrec) hw'
      | none =>
          have hmissing :=
            reads_missing (node_of_lookupRecord hr hrec) rest.reverse hw' (parent :: parents)
          -- the loop stops here, with the last wildcard it has seen
          cases hseen : (lookupRecord t star r.id).or w with
          | some wc =>
              rw [hseen] at hmissing
              exact hmissing
          | none =>
              rw [hseen] at hmissing
              exact hmissing

theorem lookup_reads {name : GoString} (hname : 2 ≤ (labels name).length) :
    ∃ res, lookup t name = .ok res ∧ Reads t (labels name) res := by
  obtain ⟨tld, l, rest, hlabels, hlookup⟩ := lookup_eq t hname
  have hroot : t.node [] = some rootRow := rfl
  -- no name is above a top label
  have hseen : Seen t [tld] none := by
    rintro q ⟨hne, hsuffix, hnot⟩
    rcases List.suffix_cons_iff.mp hsuffix with heq | hnil
    · exact absurd heq hnot
    · exact absurd (List.suffix_nil.mp hnil) hne
  refine ⟨_, hlookup, ?_⟩
  rw [hlabels]
  cases hrec : lookupRecord t tld 0 with
  | none => exact reads_missing (node_of_lookupRecord hroot hrec) _ hseen []
  | some parent =>
      exact lookupLoop_reads _ (List.cons_ne_nil _ _) (lookupRecord_readAt hroot hrec) hseen

theorem two_le_of_lookup {name : GoString} {found : Domain × List Domain}
    (hlookup : lookup t name = .ok (.ok found)) : 2 ≤ (labels name).length := by
  unfold lookup at hlookup
  split at hlookup
  · cases hlookup
  · cases hd : normalizeDomain name with
    | error e =>
        rw [hd] at hlookup
        cases hlookup
    | ok d =>
        rw [labels, hd]
        rw [hd] at hlookup
        dsimp only [bind, Except.bind] at hlookup ⊢
        rw [← List.length_reverse]
        rcases hrev : (d.split dot).reverse with _ | ⟨tld, _ | ⟨l, rest⟩⟩
        · rw [hrev] at hlookup
          cases hlookup
        · rw [hrev] at hlookup
          cases hlookup
        · simp

/-- A lookup that succeeds has found the row of the last label. -/
theorem lookup_inv {name : GoString} {found : Domain × List Domain}
    (hlookup : lookup t name = .ok (.ok found)) :
    ∃ tld l rest parent, labels name = (l :: rest).reverse ++ [tld] ∧
      lookupRecord t tld 0 = some parent ∧ lookupLoop t (l :: rest) parent [] none = .ok found := by
  obtain ⟨tld, l, rest, hlabels, heq⟩ := lookup_eq t (two_le_of_lookup hlookup)
  rw [hlookup] at heq
  have hfound := Except.ok.inj heq
  cases hrec : lookupRecord t tld 0 with
  | none =>
      rw [hrec] at hfound
      cases hfound
  | some parent =>
      rw [hrec] at hfound
      exact ⟨tld, l, rest, parent, hlabels, hrec, hfound.symm⟩

theorem lookup_answer {name : GoString} {found : Domain × List Domain}
    (hlookup : lookup t name = .ok (.ok found)) : Answer t (labels name) found.1 := by
  obtain ⟨res, hres, hreads⟩ := lookup_reads (t := t) (two_le_of_lookup hlookup)
  cases hlookup.symm.trans hres
  exact hreads

end CommonLib.XDNS.DNSBase
