import CommonLib.XDNS.DNSBase.Deletions

/-!
# The name of the rule that was found

A domain that `Lookup` returns is linked to its parents, and `Unchain` reads its name off the links.
A wildcard found on the way down gets its link only when the walk stops, to the domain it stops at.
-/

namespace CommonLib.XDNS.DNSBase

open CommonLib.Reasoning

/-- `Unchain` of the domain found, whose parents are listed beside it. -/
def unchain (found : Domain × List Domain) : GoString :=
  GoString.join ((found.1 :: found.2).map Domain.name) dot

/-- The domain unchains to the name of the rule it was read from. -/
structure Unchains (t : Table) (name : GoString) (found : Domain × List Domain) : Prop where
  exact : ReadAt t (labels name) found.1 → normalizeDomain name = .ok (unchain found)
  wildcard : ∀ q, ReadAt t (star :: q) found.1 → unchain found = GoString.join (star :: q) dot

/-- Where the rows for `n` end, there is a wildcard. -/
def EndsAtWildcard (t : Table) (n : List GoString) : Prop :=
  ∀ l p, l :: p <:+ n → (t.node p).isSome → t.node (l :: p) = none → (t.node (star :: p)).isSome

variable {t : Table} {n p q : List GoString}

/-- The rows for a name end at one place. -/
theorem end_unique {l l' : GoString} (hl : l :: p <:+ n) (hl' : l' :: q <:+ n)
    (hp : (t.node p).isSome) (hq : (t.node q).isSome) (hnone : t.node (l :: p) = none)
    (hnone' : t.node (l' :: q) = none) : p = q := by
  rcases List.suffix_or_suffix_of_suffix hl hl' with h | h
  · rcases List.suffix_cons_iff.mp h with heq | h
    · exact (List.cons.inj heq).2
    · exact absurd h (not_suffix_of_missing hnone hq)
  · rcases List.suffix_cons_iff.mp h with heq | h
    · exact (List.cons.inj heq).2.symm
    · exact absurd h (not_suffix_of_missing hnone' hp)

/-! ## The chain -/

/-- The domain of a `*` row below a suffix of `p`. -/
def Candidate (t : Table) (p : List GoString) (d : Domain) : Prop :=
  d.name = star ∧ ∃ q, q <:+ p ∧ ReadAt t (star :: q) d

/-- What the walk returns: the node of the name with its parents, or a wildcard with the parents of
the place where the rows end. -/
inductive Chained (t : Table) (n : List GoString) (found : Domain × List Domain) : Prop
  | own (hread : ReadAt t n found.1) (hnames : (found.1 :: found.2).map Domain.name = n)
  | wildcard {l : GoString} {p q : List GoString} (hl : l :: p <:+ n) (hp : (t.node p).isSome)
      (hnone : t.node (l :: p) = none) (hq : q <:+ p) (hread : ReadAt t (star :: q) found.1)
      (hdeepest : (t.node (star :: p)).isSome → q = p)
      (hnames : (found.1 :: found.2).map Domain.name = star :: p)

theorem lookupRecord_name {name : GoString} {pid : Nat} {d : Domain}
    (hrec : lookupRecord t name pid = some d) : d.name = name := by
  obtain ⟨r, -, rfl⟩ := lookupRecord_eq_some_iff.mp hrec
  rfl

/-- The wildcard the loop goes on with below `p`, and whether it is the one of `p`. -/
theorem Candidate.next {r : Row} {w : Option Domain} {d : Domain} (hr : t.node p = some r)
    (hw : ∀ d, w = some d → Candidate t p d) (hd : (lookupRecord t star r.id).or w = some d) :
    d.name = star ∧
      ∃ q, q <:+ p ∧ ReadAt t (star :: q) d ∧ ((t.node (star :: p)).isSome → q = p) := by
  cases hrec : lookupRecord t star r.id with
  | none =>
      rw [hrec, Option.none_or] at hd
      obtain ⟨hstar, q, hq, hread⟩ := hw d hd
      refine ⟨hstar, q, hq, hread, fun hsome ↦ ?_⟩
      rw [node_of_lookupRecord hr hrec] at hsome
      cases hsome
  | some d' =>
      rw [hrec, Option.some_or] at hd
      cases hd
      exact ⟨lookupRecord_name hrec, p, List.suffix_refl p, lookupRecord_readAt hr hrec,
        fun _ ↦ rfl⟩

theorem lookupLoop_chained (rest : List GoString) {parent : Domain} {parents : List Domain}
    {w : Option Domain} {found : Domain × List Domain} (hread : ReadAt t p parent)
    (hnames : (parent :: parents).map Domain.name = p) (hw : ∀ d, w = some d → Candidate t p d)
    (hloop : lookupLoop t rest parent parents w = .ok found) :
    Chained t (rest.reverse ++ p) found := by
  induction rest generalizing p parent parents w with
  | nil =>
      rw [lookupLoop] at hloop
      split at hloop
      · cases hloop
        exact .own hread hnames
      · cases hloop
  | cons name rest ih =>
      obtain ⟨r, hr, hid, hcat⟩ := hread
      rw [List.reverse_cons, List.append_assoc, List.singleton_append]
      rw [lookupLoop, hid] at hloop
      cases hrec : lookupRecord t name r.id with
      | some d =>
          rw [hrec] at hloop
          refine ih (lookupRecord_readAt hr hrec) ?_ (fun d hd ↦ ?_) hloop
          · rw [List.map_cons, hnames, lookupRecord_name hrec]
          · obtain ⟨hstar, q, hq, hread, -⟩ := Candidate.next hr hw hd
            exact ⟨hstar, q, hq.trans (List.suffix_cons ..), hread⟩
      | none =>
          rw [hrec] at hloop
          cases hseen : (lookupRecord t star r.id).or w with
          | none =>
              rw [hseen] at hloop
              cases hloop
          | some wc =>
              rw [hseen] at hloop
              cases hloop
              obtain ⟨hstar, q, hq, hread, hdeepest⟩ := Candidate.next hr hw hseen
              refine .wildcard (List.suffix_append rest.reverse (name :: p)) (by rw [hr]; rfl)
                (node_of_lookupRecord hr hrec) hq hread hdeepest ?_
              rw [List.map_cons, hnames, hstar]

theorem lookup_chained {name : GoString} {found : Domain × List Domain}
    (hlookup : lookup t name = .ok (.ok found)) : Chained t (labels name) found := by
  obtain ⟨tld, l, rest, parent, hlabels, hrec, hloop⟩ := lookup_inv hlookup
  have hroot : t.node [] = some rootRow := rfl
  rw [hlabels]
  apply lookupLoop_chained (w := none) (l :: rest) (lookupRecord_readAt hroot hrec) _ nofun hloop
  rw [List.map_singleton, lookupRecord_name hrec]

/-! ## When the chain is the rule's -/

theorem dot_not_mem_of_suffix {name : GoString} (hp : p <:+ labels name) : ∀ l ∈ p, dot ∉ l := by
  intro l hl
  have hmem := hp.subset hl
  unfold labels at hmem
  split at hmem
  · exact GoString.not_mem_of_mem_split hmem
  · cases hmem

theorem dot_not_mem_star_cons {name : GoString} (hp : p <:+ labels name) :
    ∀ l ∈ star :: p, dot ∉ l := by
  intro l hl
  rcases List.mem_cons.mp hl with rfl | hl
  · decide
  · exact dot_not_mem_of_suffix hp l hl

/-- A domain is read at one name only. -/
theorem Linked.readAt_unique (h : Linked t) {d : Domain} (hp : ReadAt t p d) (hq : ReadAt t q d) :
    p = q := by
  obtain ⟨r, hr, hid, -⟩ := hp
  obtain ⟨r', hr', hid', -⟩ := hq
  exact h.inj p q r r' hr hr' (hid.symm.trans hid')

theorem normalizeDomain_of_labels {name : GoString} (hne : labels name ≠ []) :
    normalizeDomain name = .ok (GoString.join (labels name) dot) := by
  unfold labels at hne ⊢
  cases hd : normalizeDomain name with
  | error e =>
      rw [hd] at hne
      exact absurd rfl hne
  | ok d => rw [GoString.join_split]

/-- In every table that calls have left, a domain found by `Lookup` unchains to the name of its rule
exactly if there is a wildcard where the rows for the name end. -/
theorem unchains_iff (ops : List Op) (rs : List Reply) (t : Table)
    (hrun : runAll exec ops [] = .ok (rs, t)) (name : GoString) (found : Domain × List Domain)
    (hlookup : lookup t name = .ok (.ok found)) :
    Unchains t name found ↔ EndsAtWildcard t (labels name) := by
  have hlinked := (accounted_run hrun).linked
  have hne : labels name ≠ [] := by
    intro hnil
    have htwo := two_le_of_lookup hlookup
    rw [hnil] at htwo
    cases htwo
  cases lookup_chained hlookup with
  | own hread hnames =>
      constructor
      · -- every suffix of the name has its row
        intro _ l p hl _ hnone
        exact absurd hl (not_suffix_of_missing hnone hread.isSome)
      · intro _
        have hunchain : unchain found = GoString.join (labels name) dot := by rw [unchain, hnames]
        refine ⟨fun _ ↦ ?_, fun q hq ↦ ?_⟩
        · rw [hunchain]
          exact normalizeDomain_of_labels hne
        · rw [hunchain, hlinked.readAt_unique hread hq]
  | @wildcard l p q hl hp hnone hq hread hdeepest hnames =>
      have hunchain : unchain found = GoString.join (star :: p) dot := by rw [unchain, hnames]
      constructor
      · intro h l' p' hl' hp' hnone'
        have heq := h.wildcard q hread
        rw [hunchain] at heq
        have hlabels : p <:+ labels name := (List.suffix_cons l p).trans hl
        have hsame := GoString.join_inj (dot_not_mem_star_cons hlabels)
          (dot_not_mem_star_cons (hq.trans hlabels)) (List.cons_ne_nil _ _) (List.cons_ne_nil _ _) heq
        rw [end_unique hl' hl hp' hp hnone' hnone, hsame]
        exact hread.isSome
      · intro h
        obtain rfl := hdeepest (h l p hl hp hnone)
        refine ⟨fun hown ↦ ?_, fun q' hq' ↦ ?_⟩
        · exact absurd hl (not_suffix_of_missing hnone hown.isSome)
        · rw [hunchain, hlinked.readAt_unique hread hq']

/-- `*.a` answers `x.a`, where the rows end at `a`. -/
theorem unchains_wildcard :
    ∃ rs t found, runAll exec [.write noFaults [42, 46, 97] [[99]]] [] = .ok (rs, t) ∧
      lookup t [120, 46, 97] = .ok (.ok found) ∧ Unchains t [120, 46, 97] found := by
  refine ⟨_, _, _, rfl, rfl, (unchains_iff [.write noFaults [42, 46, 97] [[99]]] _ _ rfl
    [120, 46, 97] _ rfl).mpr fun l p hl hp hnone ↦ ?_⟩
  rcases List.suffix_cons_iff.mp hl with heq | hl
  · cases heq
    rfl
  · rcases List.suffix_cons_iff.mp hl with heq | hl
    · cases heq
      cases hnone
    · cases List.suffix_nil.mp hl

/-- With `*.a` and `x.b.a`, a lookup of `y.b.a` finds `*.a` and returns it with the parent `b.a`. -/
theorem wildcard_misnamed :
    ∃ rs t found, runAll exec [.write noFaults [42, 46, 97] [[99]],
        .write noFaults [120, 46, 98, 46, 97] [[99]]] [] = .ok (rs, t) ∧
      lookup t [121, 46, 98, 46, 97] = .ok (.ok found) ∧ ReadAt t [[42], [97]] found.1 ∧
      unchain found = [42, 46, 98, 46, 97] ∧ ¬ Unchains t [121, 46, 98, 46, 97] found := by
  refine ⟨_, _, _, rfl, rfl, ⟨_, rfl, rfl, rfl⟩, rfl, fun h ↦ ?_⟩
  exact absurd (h.wildcard [[97]] ⟨_, rfl, rfl, rfl⟩) (by decide)

end CommonLib.XDNS.DNSBase
