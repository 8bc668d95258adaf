import CommonLib.XDNS.DNSBase.Deletions

/-!
# One rule more

A further rule leaves every name blocked except those it gives a node without categories: the names
above its own that only a wildcard covered so far.
-/

namespace CommonLib.XDNS.DNSBase

open CommonLib.Reasoning

variable {t t' : Table} {n : List GoString} {domain : GoString} {cats : Categories}

/-- `Lookup` finds a match. -/
def Found (t : Table) (name : GoString) : Prop := ∃ found, lookup t name = .ok (.ok found)

/-- Some `*` node is above the name. -/
def HasWildcard (t : Table) (n : List GoString) : Prop :=
  ∃ q, WildcardOf n q ∧ (t.node (star :: q)).isSome

theorem exists_readAt {p : List GoString} {r : Row} (hr : t.node p = some r) :
    ∃ d, ReadAt t p d ∧ d.categories = Categories.scan r.category :=
  ⟨⟨r.id, 0, [], Categories.scan r.category⟩, ⟨r, hr, rfl, rfl⟩, rfl⟩

theorem exists_answer_iff :
    (∃ d, Answer t n d) ↔ t.hasRule n ∨ t.node n = none ∧ HasWildcard t n := by
  constructor
  · rintro ⟨d, ⟨⟨r, hr, -, hcat⟩, hchild⟩ | ⟨q, hnone, hq, hread⟩⟩
    · left
      rw [hasRule_eq hr, ← hcat]
      exact hchild
    · exact .inr ⟨hnone, q, hq, hread.isSome⟩
  · rintro (hrule | ⟨hnone, q, hq, hsome⟩)
    · cases hr : t.node n with
      | none =>
          rw [Table.hasRule, hr] at hrule
          cases hrule
      | some r =>
          obtain ⟨d, hread, hcat⟩ := exists_readAt hr
          rw [hasRule_eq hr, ← hcat] at hrule
          exact ⟨d, .own hread hrule⟩
    · obtain ⟨r, hr⟩ := Option.isSome_iff_exists.mp hsome
      obtain ⟨d, hread, -⟩ := exists_readAt hr
      exact ⟨d, .wildcard q hnone hq hread⟩

theorem found_iff {name : GoString} (hname : 2 ≤ (labels name).length) :
    Found t name ↔ t.hasRule (labels name) ∨ t.node (labels name) = none ∧
      HasWildcard t (labels name) := by
  rw [← exists_answer_iff]
  obtain ⟨res, hres, hreads⟩ := lookup_reads (t := t) hname
  unfold Found
  rw [hres]
  cases res with
  | ok found => exact iff_of_true ⟨found, rfl⟩ ⟨found.1, hreads⟩
  | error e =>
      apply iff_of_false
      · rintro ⟨found, hfound⟩
        cases hfound
      · rintro ⟨d, hd⟩
        exact hreads d hd

/-! ## The tables before and after a stored rule -/

theorem scan_value_isSome_iff (hne : cats ≠ []) :
    (Categories.scan cats.value).isSome ↔ cats ≠ [[]] := by
  have hlen : cats.length ≠ 0 := fun hzero ↦ hne (List.length_eq_zero_iff.mp hzero)
  rw [Categories.value, if_neg hlen, Categories.scan]
  by_cases hempty : cats = [[]]
  · subst hempty
    simp [GoString.join]
  · have hjoin : GoString.join cats comma ≠ [] := fun hnil ↦
      (GoString.join_eq_nil_iff.mp hnil).elim hne hempty
    simp [List.length_pos_iff.mpr hjoin, hempty]

theorem Stored.isSome_of_isSome (h : Stored t t' domain cats) (hsome : (t.node n).isSome) :
    (t'.node n).isSome := by
  by_cases hn : n = labels domain
  · obtain ⟨r, hr, -⟩ := h.wrote.last
    rw [hn, hr]
    rfl
  · obtain ⟨r, hr⟩ := Option.isSome_iff_exists.mp hsome
    rw [h.wrote.kept n r hn hr]
    rfl

theorem Stored.hasRule_self (h : Stored t t' domain cats) :
    t'.hasRule (labels domain) ↔ cats ≠ [[]] := by
  obtain ⟨r, hr, hcat, -⟩ := h.wrote.last
  rw [hasRule_eq hr, hcat, scan_value_isSome_iff h.cats_ne]

theorem Stored.hasRule_of_ne (h : Stored t t' domain cats) (hn : n ≠ labels domain) :
    t'.hasRule n = t.hasRule n := by
  cases hr' : t'.node n with
  | some r =>
      rcases h.wrote.added n r hn hr' with hr | ⟨hnone, -, hcat⟩
      · rw [hasRule_eq hr', hasRule_eq hr]
      · rw [hasRule_eq hr', hcat, Table.hasRule, hnone]
        rfl
  | none =>
      have hnone : t.node n = none := by
        cases hr : t.node n with
        | none => rfl
        | some r => exact absurd (h.wrote.kept n r hn hr) (by simp [hr'])
      rw [Table.hasRule, Table.hasRule, hr', hnone]

/-- The names above the rule have nodes now, and no others. -/
theorem Stored.node_eq_none_iff (h : Stored t t' domain cats) :
    t'.node n = none ↔ t.node n = none ∧ ¬ n <:+ labels domain := by
  constructor
  · intro hnone
    refine ⟨?_, fun hsuffix ↦ ?_⟩
    · rw [← Option.not_isSome_iff_eq_none] at hnone ⊢
      exact fun hsome ↦ hnone (h.isSome_of_isSome hsome)
    · obtain ⟨r, hr, -⟩ := h.wrote.last
      exact not_suffix_of_missing hnone (by rw [hr]; rfl) hsuffix
  · rintro ⟨hnone, hnot⟩
    cases hr : t'.node n with
    | none => rfl
    | some r =>
        have hne : n ≠ labels domain := fun heq ↦ hnot (heq ▸ List.suffix_refl _)
        rcases h.wrote.added n r hne hr with hold | ⟨-, hsuffix, -⟩
        · rw [hnone] at hold
          cases hold
        · exact absurd hsuffix hnot

theorem Stored.found_iff (h : Stored t t' domain cats)
    (hbefore : t.hasRule n ∨ t.node n = none ∧ HasWildcard t n) :
    (t'.hasRule n ∨ t'.node n = none ∧ HasWildcard t' n) ↔
      t.hasRule n ∨ ¬ n <:+ labels domain ∨ n = labels domain ∧ cats ≠ [[]] := by
  constructor
  · rintro (hrule | ⟨hnone, -⟩)
    · by_cases hn : n = labels domain
      · subst hn
        exact .inr (.inr ⟨rfl, h.hasRule_self.mp hrule⟩)
      · rw [h.hasRule_of_ne hn] at hrule
        exact .inl hrule
    · exact .inr (.inl (h.node_eq_none_iff.mp hnone).2)
  · have hkept : t.hasRule n → t'.hasRule n := by
      intro hrule
      -- the rule would have been refused if it had been there
      have hn : n ≠ labels domain := by
        rintro rfl
        rw [h.noRule] at hrule
        cases hrule
      rw [h.hasRule_of_ne hn]
      exact hrule
    rintro (hrule | hnot | ⟨rfl, hcats⟩)
    · exact .inl (hkept hrule)
    · rcases hbefore with hrule | ⟨hnone, q, hq, hsome⟩
      · exact .inl (hkept hrule)
      · exact .inr ⟨h.node_eq_none_iff.mpr ⟨hnone, hnot⟩, q, hq, h.isSome_of_isSome hsome⟩
    · exact .inl (h.hasRule_self.mpr hcats)

theorem found_after_write (ops : List Op) (rs : List Reply) (t : Table)
    (hrun : runAll exec ops [] = .ok (rs, t)) (name : GoString) (hfound : Found t name)
    (fails : Nat → Bool) (domain : GoString) (cats : Categories) (t' : Table)
    (hwrite : write fails t domain cats = .ok (none, t')) :
    Found t' name ↔ t' = t ∨ t.hasRule (labels name) ∨ ¬ labels name <:+ labels domain ∨
      labels name = labels domain ∧ cats ≠ [[]] := by
  have hname : 2 ≤ (labels name).length := by
    obtain ⟨found, hlookup⟩ := hfound
    exact two_le_of_lookup hlookup
  have hbefore := (found_iff hname).mp hfound
  rcases (accounted_run hrun).linked.write_cases hwrite with rfl | ⟨-, hstored⟩
  · exact iff_of_true hfound (.inl rfl)
  · rw [found_iff hname, hstored.found_iff hbefore]
    constructor
    · exact .inr
    · rintro (rfl | hcond)
      · exact (hstored.found_iff hbefore).mp hbefore
      · exact hcond

/-- After `*.b`, the rule `c.b` leaves `a.b` blocked. -/
theorem found_after_sibling :
    ∃ rs t t', runAll exec [.write noFaults [42, 46, 98] [[99]]] [] = .ok (rs, t) ∧
      Found t [97, 46, 98] ∧ write noFaults t [99, 46, 98] [[100]] = .ok (none, t') ∧
      Found t' [97, 46, 98] :=
  ⟨_, _, _, rfl, ⟨_, rfl⟩, rfl, (found_after_write [.write noFaults [42, 46, 98] [[99]]] _ _ rfl
    [97, 46, 98] ⟨_, rfl⟩ noFaults [99, 46, 98] [[100]] _ rfl).mpr (.inr (.inr (.inl (by decide))))⟩

/-- After `*.b`, the rule `x.a.b` unblocks `a.b`. -/
theorem longer_rule_unblocks :
    ∃ rs t t', runAll exec [.write noFaults [42, 46, 98] [[99]]] [] = .ok (rs, t) ∧
      Found t [97, 46, 98] ∧ write noFaults t [120, 46, 97, 46, 98] [[100]] = .ok (none, t') ∧
      ¬ Found t' [97, 46, 98] := by
  refine ⟨_, _, _, rfl, ⟨_, rfl⟩, rfl, ?_⟩
  rintro ⟨found, hfound⟩
  cases hfound

end CommonLib.XDNS.DNSBase
