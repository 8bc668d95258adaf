import CommonLib.XDNS.DNSBase.Tree

/-!
# What a lookup finds

The tree of labels against one flat rule: a name matches the rule of its own, and a name that no
rule has as a suffix matches the wildcard rule of its longest suffix that has one.
-/

namespace CommonLib.XDNS.DNSBase

open CommonLib.Reasoning

/-- A rule as it was accepted: the labels of its name and its categories. -/
abbrev Accepted := List GoString × Categories

/-- `*.q` is a rule with categories `c` and `q` a proper suffix of `n`. -/
def IsWildcard (R : List Accepted) (n q : List GoString) (c : Categories) : Prop :=
  q <:+ n ∧ q ≠ n ∧ (star :: q, c) ∈ R

def LongestWildcard (R : List Accepted) (n : List GoString) (c : Categories) : Prop :=
  ∃ q, IsWildcard R n q c ∧ ∀ q' c', IsWildcard R n q' c' → q'.length ≤ q.length

def Matches (R : List Accepted) (n : List GoString) (c : Categories) : Prop :=
  (n, c) ∈ R ∨ ((∀ a ∈ R, ¬ n <:+ a.1) ∧ LongestWildcard R n c)

/-- A rule as the writer accepts it. -/
structure Accepted.Valid (a : Accepted) : Prop where
  two_le : 2 ≤ a.1.length
  star_first : star ∉ a.1.tail
  cats_ne : a.2 ≠ []
  cats_valid : ∀ c ∈ a.2, c ≠ [] ∧ comma ∉ c

/-- The table holds the rules `R`; `cats` is its category column by name. -/
structure Stores (t : Table) (R : List Accepted) (cats : List GoString → Option GoString) :
    Prop where
  tree : Tree t {p | p = [] ∨ ∃ a ∈ R, p <:+ a.1} cats
  cats_of_mem : ∀ p c, (p, c) ∈ R → cats p = Categories.value c
  cats_of_notMem : ∀ p, (∀ c, (p, c) ∉ R) → cats p = none
  valid : ∀ a ∈ R, Accepted.Valid a

variable {t : Table} {R : List Accepted} {cats : List GoString → Option GoString}

/-- Categories come back as they were given unless they hold a comma or are empty. -/
theorem scan_value {cats : Categories} (hne : cats ≠ []) (hcats : ∀ c ∈ cats, c ≠ [] ∧ comma ∉ c) :
    Categories.scan cats.value = some cats := by
  have hlen : cats.length ≠ 0 := fun hzero ↦ hne (List.length_eq_zero_iff.mp hzero)
  have hjoin : GoString.join cats comma ≠ [] :=
    GoString.join_ne_nil (fun c hc ↦ (hcats c hc).1) hne
  rw [Categories.value, if_neg hlen, Categories.scan, if_pos (List.length_pos_of_ne_nil hjoin),
    GoString.split_join (fun c hc ↦ (hcats c hc).2) hne]

theorem Accepted.Valid.value_eq {a : Accepted} (h : a.Valid) :
    ∃ s, Categories.value a.2 = some s ∧ s ≠ [] ∧ Categories.scan (some s) = some a.2 := by
  have hlen : a.2.length ≠ 0 := fun hzero ↦ h.cats_ne (List.length_eq_zero_iff.mp hzero)
  have hvalue : Categories.value a.2 = some (GoString.join a.2 comma) := if_neg hlen
  refine ⟨_, hvalue, GoString.join_ne_nil (fun c hc ↦ (h.cats_valid c hc).1) h.cats_ne, ?_⟩
  rw [← hvalue]
  exact scan_value h.cats_ne h.cats_valid

/-- The categories read back at a name are those of its rule. -/
theorem Stores.scan_eq_some (h : Stores t R cats) {p : List GoString} {c : Categories} :
    Categories.scan (cats p) = some c ↔ (p, c) ∈ R := by
  have hscan : ∀ c', (p, c') ∈ R → Categories.scan (cats p) = some c' := by
    intro c' hmem
    obtain ⟨s, hs, -, hscan⟩ := (h.valid _ hmem).value_eq
    rw [h.cats_of_mem p c' hmem, hs, hscan]
  constructor
  · intro hc
    by_cases hmem : ∃ c', (p, c') ∈ R
    · obtain ⟨c', hc'⟩ := hmem
      rw [hscan c' hc', Option.some.injEq] at hc
      exact hc ▸ hc'
    · rw [h.cats_of_notMem p (not_exists.mp hmem)] at hc
      cases hc
  · exact hscan c

theorem Stores.unique (h : Stores t R cats) {p : List GoString} {c c' : Categories}
    (hc : (p, c) ∈ R) (hc' : (p, c') ∈ R) : c = c' := by
  rw [← h.scan_eq_some] at hc hc'
  exact Option.some.inj (hc.symm.trans hc')

theorem Stores.node_isSome (h : Stores t R cats) {p : List GoString} (hp : p ≠ []) :
    (t.node p).isSome ↔ ∃ a ∈ R, p <:+ a.1 :=
  (h.tree.node_isSome p).trans (or_iff_right hp)

/-- A `*` row is always the first label of a rule. -/
theorem Stores.star_node (h : Stores t R cats) {p : List GoString} :
    (t.node (star :: p)).isSome ↔ ∃ c, (star :: p, c) ∈ R := by
  rw [h.node_isSome (List.cons_ne_nil _ _)]
  constructor
  · rintro ⟨a, ha, pre, heq⟩
    cases pre with
    | nil => exact ⟨a.2, by rw [List.nil_append] at heq; rw [heq]; exact ha⟩
    -- a `*` further inside is refused by `validateDomain`
    | cons l pre =>
        apply absurd _ (h.valid a ha).star_first
        rw [← heq]
        simp
  · rintro ⟨c, hc⟩
    exact ⟨_, hc, List.suffix_refl _⟩

theorem Stores.matches_unique (h : Stores t R cats) {n : List GoString} {c c' : Categories}
    (hc : Matches R n c) (hc' : Matches R n c') : c = c' := by
  rcases hc with hc | ⟨hnot, q, hq, hmax⟩
  · rcases hc' with hc' | ⟨hnot, -⟩
    · exact h.unique hc hc'
    · exact absurd (List.suffix_refl n) (hnot _ hc)
  · rcases hc' with hc' | ⟨-, q', hq', hmax'⟩
    · exact absurd (List.suffix_refl n) (hnot _ hc')
    · have hlen : q.length = q'.length :=
        Nat.le_antisymm (hmax' q c hq) (hmax q' c' hq')
      -- two suffixes of one length are the same
      have heq : q = q' := by
        rw [List.suffix_iff_eq_drop.mp hq.1, List.suffix_iff_eq_drop.mp hq'.1, hlen]
      subst heq
      exact h.unique hq.2.2 hq'.2.2

/-! ## The reader's loop -/

/-- The wildcard the loop has seen when it stands at `p`. -/
def WildcardAbove (R : List Accepted) (p : List GoString) (w : Option Domain) : Prop :=
  (w = none ∧ ∀ q c, ¬ IsWildcard R p q c) ∨
    ∃ d c, w = some d ∧ d.categories = some c ∧ LongestWildcard R p c

theorem isWildcard_cons {p q : List GoString} {name : GoString} {c : Categories} :
    IsWildcard R (name :: p) q c ↔ q <:+ p ∧ (star :: q, c) ∈ R := by
  constructor
  · rintro ⟨hsuffix, hne, hmem⟩
    exact ⟨(List.suffix_cons_iff.mp hsuffix).resolve_left hne, hmem⟩
  · rintro ⟨hsuffix, hmem⟩
    refine ⟨hsuffix.trans (List.suffix_cons ..), ?_, hmem⟩
    rintro rfl
    have := hsuffix.length_le
    simp at this

theorem Stores.wildcard_step (h : Stores t R cats) {p : List GoString} {r : Row}
    (hr : t.node p = some r) (name : GoString) {w : Option Domain} (hw : WildcardAbove R p w) :
    WildcardAbove R (name :: p) ((lookupRecord t star r.id).or w) := by
  rw [h.tree.lookupRecord_eq hr]
  cases hstar : t.node (star :: p) with
  | some r' =>
      obtain ⟨c, hc⟩ := h.star_node.mp (by rw [hstar]; rfl)
      refine .inr ⟨_, c, rfl, h.scan_eq_some.mpr hc, p, isWildcard_cons.mpr ⟨List.suffix_refl p, hc⟩, ?_⟩
      exact fun q' c' hq' ↦ (isWildcard_cons.mp hq').1.length_le
  | none =>
      have hnone : ∀ c, (star :: p, c) ∉ R := fun c hc ↦ by
        have hsome := h.star_node.mpr ⟨c, hc⟩
        rw [hstar] at hsome
        cases hsome
      -- without a `*` child of `p` nothing is added to what was seen above
      have hsame : ∀ q c, IsWildcard R (name :: p) q c ↔ IsWildcard R p q c := by
        intro q c
        rw [isWildcard_cons]
        constructor
        · rintro ⟨hsuffix, hmem⟩
          refine ⟨hsuffix, ?_, hmem⟩
          rintro rfl
          exact hnone c hmem
        · rintro ⟨hsuffix, -, hmem⟩
          exact ⟨hsuffix, hmem⟩
      unfold WildcardAbove LongestWildcard at hw ⊢
      simp only [hsame]
      exact hw

/-- Below a name without a node there are no rules. -/
theorem Stores.matches_of_missing (h : Stores t R cats) {p : List GoString} {name : GoString}
    (hnone : t.node (name :: p) = none) (rest : List GoString) (c : Categories) :
    Matches R (rest ++ name :: p) c ↔ LongestWildcard R (name :: p) c := by
  have habsent : ∀ q, name :: p <:+ q → ∀ a ∈ R, ¬ q <:+ a.1 := by
    intro q hq a ha hsuffix
    have hsome := (h.node_isSome (List.cons_ne_nil name p)).mpr ⟨a, ha, hq.trans hsuffix⟩
    rw [hnone] at hsome
    cases hsome
  have hfull : name :: p <:+ rest ++ name :: p := List.suffix_append ..
  have hsame : ∀ q c, IsWildcard R (rest ++ name :: p) q c ↔ IsWildcard R (name :: p) q c := by
    intro q c
    constructor
    · rintro ⟨hsuffix, -, hmem⟩
      have hnot : ¬ name :: p <:+ q := fun hq ↦ habsent q hq _ hmem (List.suffix_cons ..)
      -- no rule is below the missing node, so the wildcard is above it
      have hq : q <:+ name :: p := (List.suffix_or_suffix_of_suffix hsuffix hfull).resolve_right hnot
      exact ⟨hq, fun heq ↦ hnot (heq ▸ List.suffix_refl _), hmem⟩
    · rintro ⟨hsuffix, hne, hmem⟩
      refine ⟨hsuffix.trans hfull, ?_, hmem⟩
      rintro rfl
      exact hne (hsuffix.eq_of_length_le (by simp))
  unfold Matches LongestWildcard
  simp only [hsame]
  constructor
  · rintro (hmem | ⟨-, hw⟩)
    · exact absurd (List.suffix_refl _) (habsent _ hfull _ hmem)
    · exact hw
  · exact fun hw ↦ .inr ⟨habsent _ hfull, hw⟩

/-- The answer is what the flat rule gives for the name. -/
def Answers (R : List Accepted) (n : List GoString) :
    Except LookupError (Domain × List Domain) → Prop
  | .ok found => ∃ c, found.1.categories = some c ∧ Matches R n c
  | .error _ => ∀ c, ¬ Matches R n c

theorem Stores.lookupLoop_answers (h : Stores t R cats) (rest : List GoString)
    {p : List GoString} (hp : p ≠ []) {r : Row} (hr : t.node p = some r) (parent : Domain)
    (hid : parent.id = r.id) (hcat : parent.categories = Categories.scan (cats p))
    (parents : List Domain) {w : Option Domain} (hw : WildcardAbove R p w) :
    Answers R (rest.reverse ++ p) (lookupLoop t rest parent parents w) := by
  induction rest generalizing p r parent parents w with
  | nil =>
      rw [List.reverse_nil, List.nil_append, lookupLoop]
      unfold Domain.isChild
      rw [hcat]
      cases hscan : Categories.scan (cats p) with
      | some c => exact ⟨c, hcat.trans hscan, .inl (h.scan_eq_some.mp hscan)⟩
      | none =>
          rintro c (hmem | ⟨hnot, -⟩)
          · rw [← h.scan_eq_some, hscan] at hmem
            cases hmem
          · -- the name is an inner label of a rule, which shadows the wildcards above it
            obtain ⟨a, ha, hsuffix⟩ := (h.node_isSome hp).mp (by rw [hr]; rfl)
            exact hnot a ha hsuffix
  | cons name rest ih =>
      have hw' := h.wildcard_step hr name hw
      rw [List.reverse_cons, List.append_assoc, List.singleton_append, lookupLoop, hid]
      rw [h.tree.lookupRecord_eq hr name]
      cases hchild : t.node (name :: p) with
      | some r' => exact ih (List.cons_ne_nil _ _) hchild _ rfl rfl (parent :: parents) hw'
      | none =>
          have hmatch := h.matches_of_missing hchild rest.reverse
          -- the loop stops here, with the last wildcard it has seen
          rcases hw' with ⟨hnone, hall⟩ | ⟨d, c, hsome, hd, hlongest⟩
          · simp only [hnone, Option.map_none]
            intro c hc
            obtain ⟨q, hq, -⟩ := (hmatch c).mp hc
            exact hall q c hq
          · simp only [hsome, Option.map_none]
            exact ⟨c, hd, (hmatch c).mpr hlongest⟩

/-- The labels of a name after normalisation. -/
def labels (name : GoString) : List GoString :=
  match normalizeDomain name with
  | .ok d => d.split dot
  | .error _ => []

theorem two_le_length {name d : GoString} (hd : normalizeDomain name = .ok d)
    (hlen : 2 ≤ (d.split dot).length) : 2 ≤ name.length := by
  rcases name with _ | ⟨b, _ | ⟨b', rest⟩⟩
  · cases hd
  · unfold normalizeDomain at hd
    rw [List.getLast?_singleton, Except.ok.injEq] at hd
    have hdot : dot ∉ d := by
      by_cases hb : b = dot
      · rw [if_pos hb] at hd
        rw [← hd]
        exact List.not_mem_nil
      · rw [if_neg hb] at hd
        rw [← hd]
        simpa using Ne.symm hb
    rw [GoString.split, List.splitOn_eq_singleton hdot] at hlen
    simp at hlen
  · simp

/-- A name of two labels is looked up from the row of its last one. -/
theorem lookup_eq (t : Table) {name : GoString} (hname : 2 ≤ (labels name).length) :
    ∃ tld l rest, labels name = (l :: rest).reverse ++ [tld] ∧
      lookup t name = .ok ((lookupRecord t tld 0).elim (.error .noRows) fun parent ↦
        lookupLoop t (l :: rest) parent [] none) := by
  cases hd : normalizeDomain name with
  | error e =>
      rw [labels, hd] at hname
      cases hname
  | ok d =>
      have hlabels : labels name = d.split dot := by
        rw [labels, hd]
      rw [hlabels] at hname ⊢
      have hlen := two_le_length hd hname
      unfold lookup
      rw [if_neg (by omega), hd]
      dsimp only [bind, Except.bind]
      rcases hrev : (d.split dot).reverse with _ | ⟨tld, _ | ⟨l, rest⟩⟩
      · rw [← List.length_reverse, hrev] at hname
        cases hname
      · rw [← List.length_reverse, hrev] at hname
        simp at hname
      · have hparts : d.split dot = (l :: rest).reverse ++ [tld] := by
          rw [← List.reverse_reverse (d.split dot), hrev, List.reverse_cons]
        refine ⟨tld, l, rest, hparts, ?_⟩
        dsimp only
        cases lookupRecord t tld 0 with
        | none => rfl
        | some parent => rfl

/-- No rule is a lone `*`. -/
theorem Stores.not_wildcard_top (h : Stores t R cats) (tld : GoString) (q : List GoString)
    (c : Categories) : ¬ IsWildcard R [tld] q c := by
  rw [isWildcard_cons]
  rintro ⟨hsuffix, hmem⟩
  rw [List.suffix_nil.mp hsuffix] at hmem
  have := (h.valid _ hmem).two_le
  simp at this

theorem Stores.lookup_answers (h : Stores t R cats) {name : GoString}
    (hlen : 2 ≤ (labels name).length) :
    ∃ res, lookup t name = .ok res ∧ Answers R (labels name) res := by
  obtain ⟨tld, l, rest, hlabels, hlookup⟩ := lookup_eq t hlen
  have hroot : t.node [] = some rootRow := rfl
  have htop : lookupRecord t tld 0 = _ := h.tree.lookupRecord_eq hroot tld
  refine ⟨_, hlookup, ?_⟩
  rw [hlabels, htop]
  cases hnode : t.node [tld] with
  | none =>
      intro c hc
      obtain ⟨q, hq, -⟩ := (h.matches_of_missing hnode _ c).mp hc
      exact h.not_wildcard_top tld q c hq
  | some r =>
      exact h.lookupLoop_answers (l :: rest) (List.cons_ne_nil _ _) hnode _ rfl rfl []
        (.inl ⟨rfl, h.not_wildcard_top tld⟩)

/-! ## Writing rules -/

structure Rule where
  domain : GoString
  cats : Categories

structure Rule.Valid (r : Rule) : Prop where
  two_le : 2 ≤ (labels r.domain).length
  star_first : star ∉ (labels r.domain).tail
  cats_valid : ∀ c ∈ r.cats, c ≠ [] ∧ comma ∉ c

def Rule.accepted (r : Rule) : Accepted := (labels r.domain, r.cats)

/-- The table and the rules accepted so far, the last one first, after one more `Write`. -/
def writeRule (s : Table × List Accepted) (r : Rule) : Except Crash (Table × List Accepted) := do
  let (err, t) ← write noFaults s.1 r.domain r.cats
  return (t, if err = none then r.accepted :: s.2 else s.2)

def writeRules (rules : List Rule) : Except Crash (Table × List Accepted) :=
  rules.foldlM writeRule ([], [])

theorem Stores.empty : Stores [] [] fun _ ↦ none where
  tree := by
    have hnodes : {p : List GoString | p = [] ∨ ∃ a ∈ ([] : List Accepted), p <:+ a.1} = {[]} := by
      ext p
      simp
    rw [hnodes]
    exact empty_tree
  cats_of_mem _ _ h := nomatch h
  cats_of_notMem _ _ := rfl
  valid _ h := nomatch h

theorem Rule.Valid.normalize {r : Rule} (h : r.Valid) :
    ∃ d, normalizeDomain r.domain = .ok d ∧ labels r.domain = d.split dot ∧
      validateDomain (d.split dot) = none := by
  have htwo := h.two_le
  have hstar := h.star_first
  unfold labels at htwo hstar ⊢
  cases hd : normalizeDomain r.domain with
  | error e =>
      rw [hd] at htwo
      simp at htwo
  | ok d =>
      rw [hd] at htwo hstar
      dsimp only at htwo hstar
      refine ⟨d, rfl, rfl, ?_⟩
      unfold validateDomain
      rw [if_neg (by omega), List.drop_one, if_neg hstar]

theorem Stores.accept (h : Stores t R cats) {r : Rule} (hvalid : r.accepted.Valid) {t' : Table}
    {s : GoString} (hs : Categories.value r.cats = some s) (hnew : cats (labels r.domain) = none)
    (htree : Tree t' ({p | p = [] ∨ ∃ a ∈ R, p <:+ a.1} ∪ {q | q <:+ labels r.domain})
      (Function.update cats (labels r.domain) (some s))) :
    Stores t' (r.accepted :: R) (Function.update cats (labels r.domain) (some s)) := by
  refine ⟨?_, fun p c hmem ↦ ?_, fun p hnot ↦ ?_, fun a ha ↦ ?_⟩
  · have hnodes : {p : List GoString | p = [] ∨ ∃ a ∈ r.accepted :: R, p <:+ a.1} =
        {p | p = [] ∨ ∃ a ∈ R, p <:+ a.1} ∪ {q | q <:+ labels r.domain} := by
      ext p
      change (p = [] ∨ ∃ a ∈ r.accepted :: R, p <:+ a.1) ↔
        (p = [] ∨ ∃ a ∈ R, p <:+ a.1) ∨ p <:+ r.accepted.1
      rw [List.exists_mem_cons_iff, or_assoc, or_comm (b := p <:+ r.accepted.1)]
    rw [hnodes]
    exact htree
  · rcases List.mem_cons.mp hmem with heq | hmem
    · obtain ⟨rfl, rfl⟩ := Prod.mk.inj heq
      rw [Function.update_self, hs]
    · have hne : p ≠ labels r.domain := by
        rintro rfl
        obtain ⟨s', hs', -⟩ := (h.valid _ hmem).value_eq
        rw [h.cats_of_mem _ _ hmem, hs'] at hnew
        cases hnew
      rw [Function.update_of_ne hne]
      exact h.cats_of_mem p c hmem
  · have hne : p ≠ labels r.domain := by
      rintro rfl
      exact hnot r.cats List.mem_cons_self
    rw [Function.update_of_ne hne]
    exact h.cats_of_notMem p fun c hc ↦ hnot c (List.mem_cons_of_mem _ hc)
  · rcases List.mem_cons.mp ha with rfl | ha
    · exact hvalid
    · exact h.valid a ha

/-- One `Write`: a rule with categories whose name has none yet is accepted. -/
theorem Stores.writeRule_spec (h : Stores t R cats) {r : Rule} (hvalid : r.Valid) :
    ∃ t' R' cats', writeRule (t, R) r = .ok (t', R') ∧ Stores t' R' cats' ∧
      (R' = R ∨ R' = r.accepted :: R) ∧
      (r.cats ≠ [] → (∀ c, (labels r.domain, c) ∉ R) → R' = r.accepted :: R) ∧
      (r.cats = [] → R' = R) := by
  obtain ⟨d, hd, hlabels, hcheck⟩ := hvalid.normalize
  by_cases hne : r.cats = []
  · -- a rule without categories is refused before the table is touched
    refine ⟨t, R, cats, ?_, h, .inl rfl, fun hnot ↦ absurd hne hnot, fun _ ↦ rfl⟩
    unfold writeRule write
    rw [hd]
    dsimp only [bind, Except.bind]
    rw [hcheck]
    simp [hne]
    rfl
  · have hacc : r.accepted.Valid := ⟨hvalid.two_le, hvalid.star_first, hne, hvalid.cats_valid⟩
    obtain ⟨s, hs, hsne, -⟩ : ∃ s, Categories.value r.cats = some s ∧ s ≠ [] ∧ _ := hacc.value_eq
    obtain ⟨hexists, hok⟩ := h.tree.write_spec hd hcheck hs hsne
    rw [← hlabels] at hexists hok
    cases hcats : cats (labels r.domain) with
    | some s' =>
        refine ⟨t, R, cats, ?_, h, .inl rfl, fun _ hnot ↦ ?_, fun hnil ↦ absurd hnil hne⟩
        · unfold writeRule
          rw [hexists (by rw [hcats]; rfl)]
          rfl
        · rw [h.cats_of_notMem _ hnot] at hcats
          cases hcats
    | none =>
        obtain ⟨t', hwrite, htree⟩ := hok hcats
        refine ⟨t', r.accepted :: R, _, ?_, h.accept hacc hs hcats htree, .inr rfl, fun _ _ ↦ rfl,
          fun hnil ↦ absurd hnil hne⟩
        unfold writeRule
        rw [hwrite]
        rfl

theorem Stores.writeRules_spec (h : Stores t R cats) {rules : List Rule}
    (hvalid : ∀ r ∈ rules, r.Valid) :
    ∃ t' R' cats', rules.foldlM writeRule (t, R) = .ok (t', R') ∧ Stores t' R' cats' ∧
      (∀ a ∈ R', a ∈ R ∨ ∃ r ∈ rules, a = r.accepted) := by
  induction rules generalizing t R cats with
  | nil => exact ⟨t, R, cats, rfl, h, fun a ha ↦ .inl ha⟩
  | cons r rules ih =>
      obtain ⟨t₁, R₁, cats₁, hwrite, h₁, hR₁, -⟩ := h.writeRule_spec (hvalid r List.mem_cons_self)
      obtain ⟨t', R', cats', hrun, h', hR'⟩ :=
        ih h₁ fun r' hr' ↦ hvalid r' (List.mem_cons_of_mem r hr')
      refine ⟨t', R', cats', ?_, h', fun a ha ↦ ?_⟩
      · rw [List.foldlM_cons, hwrite]
        exact hrun
      · rcases hR' a ha with ha | ⟨r', hr', rfl⟩
        · rcases hR₁ with rfl | rfl
          · exact .inl ha
          · rcases List.mem_cons.mp ha with rfl | ha
            · exact .inr ⟨r, List.mem_cons_self, rfl⟩
            · exact .inl ha
        · exact .inr ⟨r', List.mem_cons_of_mem r hr', rfl⟩

/-- Rules with different names are all accepted, as long as they have categories. -/
theorem Stores.writeRules_distinct (h : Stores t R cats) {rules : List Rule}
    (hvalid : ∀ r ∈ rules, r.Valid) (hdistinct : (rules.map fun r ↦ labels r.domain).Nodup)
    (hnew : ∀ r ∈ rules, ∀ c, (labels r.domain, c) ∉ R) {t' : Table} {R' : List Accepted}
    (hrun : rules.foldlM writeRule (t, R) = .ok (t', R')) (a : Accepted) :
    a ∈ R' ↔ a ∈ R ∨ ∃ r ∈ rules, r.cats ≠ [] ∧ a = r.accepted := by
  induction rules generalizing t R cats with
  | nil =>
      cases hrun
      simp
  | cons r rules ih =>
      obtain ⟨t₁, R₁, cats₁, hwrite, h₁, -, hacc, hrej⟩ :=
        h.writeRule_spec (hvalid r List.mem_cons_self)
      rw [List.foldlM_cons, hwrite] at hrun
      obtain ⟨hnotin, hdistinct⟩ := List.nodup_cons.mp hdistinct
      have hnew₁ : ∀ r' ∈ rules, ∀ c, (labels r'.domain, c) ∉ R₁ := by
        intro r' hr' c hmem
        have hne : labels r'.domain ≠ labels r.domain := fun heq ↦
          hnotin (List.mem_map.mpr ⟨r', hr', heq⟩)
        have hold := hnew r' (List.mem_cons_of_mem r hr') c
        by_cases hcats : r.cats = []
        · exact hold (hrej hcats ▸ hmem)
        · rw [hacc hcats (hnew r List.mem_cons_self), List.mem_cons] at hmem
          rcases hmem with heq | hmem
          · exact hne (Prod.mk.inj heq).1
          · exact hold hmem
      rw [ih h₁ (fun r' hr' ↦ hvalid r' (List.mem_cons_of_mem r hr')) hdistinct hnew₁ hrun]
      rw [List.exists_mem_cons_iff]
      by_cases hcats : r.cats = []
      · rw [hrej hcats]
        simp [hcats]
      · rw [hacc hcats (hnew r List.mem_cons_self), List.mem_cons, or_assoc, or_left_comm,
          and_iff_right hcats]

/-- `Lookup` of `name` succeeds, with categories `c`. -/
def Finds (t : Table) (name : GoString) (c : Categories) : Prop :=
  ∃ found, lookup t name = .ok (.ok found) ∧ found.1.categories = some c

theorem Stores.finds_iff (h : Stores t R cats) {name : GoString}
    (hlen : 2 ≤ (labels name).length) (c : Categories) :
    Finds t name c ↔ Matches R (labels name) c := by
  obtain ⟨res, hres, hanswer⟩ := h.lookup_answers hlen
  unfold Finds
  rw [hres]
  cases res with
  | error e =>
      constructor
      · rintro ⟨found, hfound, -⟩
        cases hfound
      · exact fun hm ↦ absurd hm (hanswer c)
  | ok found =>
      obtain ⟨c', hc', hmatch⟩ := hanswer
      constructor
      · rintro ⟨found', hfound, hc⟩
        cases hfound
        rw [hc', Option.some.injEq] at hc
        exact hc ▸ hmatch
      · intro hm
        exact ⟨found, rfl, by rw [hc', h.matches_unique hmatch hm]⟩

theorem lookup_matches_rules (rules : List Rule) (hvalid : ∀ r ∈ rules, r.Valid) (name : GoString)
    (hname : 2 ≤ (labels name).length) :
    ∃ t R, writeRules rules = .ok (t, R) ∧ (∀ a ∈ R, ∃ r ∈ rules, a = r.accepted) ∧
      (∃ res, lookup t name = .ok res ∧ ∀ found, res = .ok found → ∃ c, Finds t name c) ∧
      (∀ c, Finds t name c ↔ Matches R (labels name) c) ∧
      ((rules.map fun r ↦ labels r.domain).Nodup → ∀ rules', rules'.Perm rules →
        ∃ t' R', writeRules rules' = .ok (t', R') ∧ ∀ c, Finds t' name c ↔ Finds t name c) := by
  obtain ⟨t, R, cats, hrun, h, hR⟩ := Stores.empty.writeRules_spec hvalid
  refine ⟨t, R, hrun, fun a ha ↦ (hR a ha).resolve_left List.not_mem_nil, ?_,
    h.finds_iff hname, fun hdistinct rules' hperm ↦ ?_⟩
  · obtain ⟨res, hres, hanswer⟩ := h.lookup_answers hname
    refine ⟨res, hres, fun found hfound ↦ ?_⟩
    subst hfound
    obtain ⟨c, hc, -⟩ := hanswer
    exact ⟨c, found, hres, hc⟩
  · have hvalid' : ∀ r ∈ rules', r.Valid := fun r hr ↦ hvalid r (hperm.mem_iff.mp hr)
    obtain ⟨t', R', cats', hrun', h', -⟩ := Stores.empty.writeRules_spec hvalid'
    refine ⟨t', R', hrun', fun c ↦ ?_⟩
    -- Both orders accept the same rules, and a match depends on nothing else.
    have hmem := Stores.empty.writeRules_distinct hvalid hdistinct (fun _ _ _ hc ↦ nomatch hc) hrun
    have hmem' := Stores.empty.writeRules_distinct hvalid'
      ((hperm.map _).nodup_iff.mpr hdistinct) (fun _ _ _ hc ↦ nomatch hc) hrun'
    have hsame : ∀ a, a ∈ R' ↔ a ∈ R := fun a ↦ by
      rw [hmem, hmem']
      simp only [hperm.mem_iff]
    rw [h.finds_iff hname, h'.finds_iff hname]
    unfold Matches LongestWildcard IsWildcard
    simp only [hsame]

/-- With the one rule `*.b`, of category `c`, a lookup of `x.b.` finds `c`. -/
theorem lookup_matches_wildcard :
    ∃ t R, writeRules [⟨[42, 46, 98], [[99]]⟩] = .ok (t, R) ∧ Finds t [120, 46, 98, 46] [[99]] := by
  obtain ⟨t, R, hrun, -, -, hfinds, -⟩ := lookup_matches_rules [⟨[42, 46, 98], [[99]]⟩]
    (by
      intro r hr
      rw [List.mem_singleton.mp hr]
      exact ⟨by decide, by decide, by decide⟩)
    [120, 46, 98, 46] (by decide)
  refine ⟨t, R, hrun, (hfinds [[99]]).mpr ?_⟩
  have hR : R = [([[42], [98]], [[99]])] :=
    congrArg Prod.snd (Except.ok.inj (hrun.symm.trans rfl))
  subst hR
  refine .inr ⟨by decide, [[98]], ⟨by decide, by decide, by decide⟩, fun q c hq ↦ ?_⟩
  exact (isWildcard_cons.mp hq).1.length_le

end CommonLib.XDNS.DNSBase
