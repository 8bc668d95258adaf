import CommonLib.XDNS.Client.LastActive

/-!
# The last-active resolver under concurrent calls

The step lemmas say what each step makes of the elements and their tags; everything about a run
follows from them.  An element that is taken out between the two locks of a lookup stays out, because
`MoveToFront` tests whether the list still has it.
-/

namespace CommonLib.XDNS.Client.LastActive

open Reasoning LinkedList

variable {T R E : Type} {s s' : System T R} {es : List Ref} {l : Entities T R}

/-! ## The loop of a lookup -/

/-- What the loop has found and whom it has asked, when it has come to the elements `ys`. -/
structure Looked (ys : List Ref) (found : Option (Ref × Response)) (asked : List Ref) : Prop where
  first : asked.head? = ys.head?
  found_mem : ∀ e response, found = some (e, response) → e ∈ ys

theorem lookupLoop_looked (xs ys : List Ref) (h : Holds l (xs ++ ys)) (answers : Answers R E)
    (fuel i : Nat) (hfuel : ys.length ≤ fuel) :
    ∃ found asked, lookupLoop l answers fuel i ys.head? = .ok (found, asked) ∧
      Looked ys found asked := by
  induction ys generalizing xs fuel i with
  | nil =>
      refine ⟨none, [], ?_, rfl, fun e response heq ↦ by cases heq⟩
      cases fuel <;> rfl
  | cons e ys ih =>
      obtain _ | fuel := fuel
      · cases hfuel
      · rw [List.head?_cons, lookupLoop, h.next_eq]
        cases serves (answers i (l.heap e).value.resolver) with
        | some response =>
            refine ⟨some (e, response), [e], rfl, rfl, fun e' response' heq ↦ ?_⟩
            cases heq
            exact List.mem_cons_self
        | none =>
            rw [List.append_cons] at h
            obtain ⟨found, asked, hloop, hlooked⟩ :=
              ih _ h fuel (i + 1) (Nat.le_of_succ_le_succ hfuel)
            refine ⟨found, e :: asked, ?_, rfl, fun e' response heq ↦ ?_⟩
            · change (lookupLoop l answers fuel (i + 1) ys.head? >>= _) = _
              rw [hloop]
              rfl
            · exact List.mem_cons_of_mem e (hlooked.found_mem e' response heq)

/-! ## What a step does -/

def Step.adds : Step T R E → Option T
  | .withResolver tag _ | .add tag _ => some tag
  | _ => none

def Step.ofLookup : Step T R E → Bool
  | .lookup _ _ | .moveToFront _ => true
  | _ => false

theorem adds_of_ofLookup {op : Step T R E} (h : op.ofLookup = true) : op.adds = none := by
  cases op <;> first | rfl | cases h

/-- The step has changed the order at most. -/
structure Permutes (s s' : System T R) : Prop where
  perm : s'.elements.Perm s.elements
  value : ∀ e, (s'.entities.heap e).value = (s.entities.heap e).value
  fresh : s'.entities.fresh = s.entities.fresh

inductive Effect (s s' : System T R) : Step T R E → Prop
  | present {op tag} (hadds : op.adds = some tag) (hmem : tag ∈ s.tags)
      (helements : s'.elements = s.elements) (htagOf : ∀ e, s'.tagOf e = s.tagOf e)
      (hfresh : s'.entities.fresh = s.entities.fresh) : Effect s s' op
  | added {op tag} (hadds : op.adds = some tag) (hmem : tag ∉ s.tags)
      (helements : s'.elements = s.elements ++ [s.entities.fresh])
      (htag : s'.tagOf s.entities.fresh = tag)
      (htagOf : ∀ e ∈ s.elements, s'.tagOf e = s.tagOf e)
      (hfresh : s'.entities.fresh = s.entities.fresh + 1) : Effect s s' op
  | removed {e tag} (hmem : e ∈ s.elements) (htag : s.tagOf e = tag)
      (helements : s'.elements = s.elements.erase e) (htagOf : ∀ e, s'.tagOf e = s.tagOf e)
      (hfresh : s'.entities.fresh = s.entities.fresh) : Effect s s' (.unset tag)
  | absent {tag} (hmem : tag ∉ s.tags) (hsame : s' = s) : Effect s s' (.unset tag)
  | permuted {op} (hop : op.ofLookup = true) (hpermutes : Permutes s s') : Effect s s' op

/-- The elements form a list as `list.go` keeps it. -/
def WellLinked (s : System T R) : Prop := Holds s.entities s.elements

theorem wellLinked_of_holds (h : Holds s.entities es) : WellLinked s ∧ s.elements = es := by
  have heq : s.elements = es := h.elements_eq
  exact ⟨by rwa [WellLinked, heq], heq⟩

theorem Permutes.refl (s : System T R) : Permutes s s := ⟨.refl _, fun _ ↦ rfl, rfl⟩

theorem Permutes.tagOf (h : Permutes s s') (e : Ref) : s'.tagOf e = s.tagOf e :=
  congrArg Entity.tag (h.value e)

theorem mem_tags {tag : T} : tag ∈ s.tags ↔ ∃ e ∈ s.elements, s.tagOf e = tag := List.mem_map

/-! ## The tags and the elements after a step -/

theorem tags_eq (helements : s'.elements = es) (htagOf : ∀ e ∈ es, s'.tagOf e = s.tagOf e) :
    s'.tags = es.map s.tagOf := by
  rw [System.tags, helements]
  exact List.map_congr_left htagOf

theorem tags_added {e : Ref} {tag : T} (helements : s'.elements = s.elements ++ [e])
    (htag : s'.tagOf e = tag) (htagOf : ∀ e ∈ s.elements, s'.tagOf e = s.tagOf e) :
    s'.tags = s.tags ++ [tag] := by
  rw [System.tags, helements, List.map_append, List.map_singleton, htag,
    List.map_congr_left htagOf]
  rfl

theorem tags_erase {e : Ref} (hmem : e ∈ s.elements) (hnodup : s.tags.Nodup) :
    ((s.elements.erase e).map s.tagOf).Nodup ∧
      ∀ tag, tag ∈ (s.elements.erase e).map s.tagOf ↔ tag ∈ s.tags ∧ tag ≠ s.tagOf e := by
  have hperm : s.tags.Perm (s.tagOf e :: (s.elements.erase e).map s.tagOf) :=
    (List.perm_cons_erase hmem).map s.tagOf
  obtain ⟨hnotin, hrest⟩ := List.nodup_cons.mp (hperm.nodup_iff.mp hnodup)
  refine ⟨hrest, fun tag ↦ ?_⟩
  rw [hperm.mem_iff, List.mem_cons]
  constructor
  · intro htag
    exact ⟨.inr htag, fun heq ↦ hnotin (heq ▸ htag)⟩
  · rintro ⟨htag | htag, hne⟩
    · exact absurd htag hne
    · exact htag

theorem Permutes.tags (h : Permutes s s') : s'.tags.Perm s.tags := by
  rw [tags_eq rfl fun e _ ↦ h.tagOf e]
  exact h.perm.map s.tagOf

theorem Effect.tags_nodup {op : Step T R E} (h : Effect s s' op) (hnodup : s.tags.Nodup) :
    s'.tags.Nodup := by
  cases h with
  | present hadds hmem helements htagOf =>
      rwa [tags_eq helements fun e _ ↦ htagOf e]
  | added hadds hmem helements htag htagOf =>
      rw [tags_added helements htag htagOf]
      exact List.nodup_append.mpr ⟨hnodup, List.nodup_singleton _, by
        rintro a ha b hb rfl
        exact hmem (List.mem_singleton.mp hb ▸ ha)⟩
  | removed hmem htag helements htagOf =>
      rw [tags_eq helements fun e _ ↦ htagOf e]
      exact (tags_erase hmem hnodup).1
  | absent hmem hsame => rwa [hsame]
  | permuted hop hpermutes => exact hpermutes.tags.nodup_iff.mpr hnodup

theorem Effect.mem_tags {op : Step T R E} (h : Effect s s' op) (hnodup : s.tags.Nodup) (tag : T) :
    tag ∈ s'.tags ↔ op.adds = some tag ∨ tag ∈ s.tags ∧ op ≠ .unset tag := by
  have hunset : ∀ {op : Step T R E} {tag' : T}, op.adds = some tag' → op ≠ .unset tag := by
    rintro _ tag' hadds rfl
    cases hadds
  cases h with
  | present hadds hmem helements htagOf =>
      rw [tags_eq helements fun e _ ↦ htagOf e, hadds]
      constructor
      · exact fun htag ↦ .inr ⟨htag, hunset hadds⟩
      · rintro (heq | ⟨htag, -⟩)
        · exact Option.some.inj heq ▸ hmem
        · exact htag
  | added hadds hmem helements htag htagOf =>
      rw [tags_added helements htag htagOf, List.mem_append, List.mem_singleton, hadds,
        Option.some.injEq, or_comm, eq_comm]
      simp [hunset hadds]
  | removed hmem htag helements htagOf =>
      rw [tags_eq helements fun e _ ↦ htagOf e, (tags_erase hmem hnodup).2, htag]
      simp [Step.adds, eq_comm]
  | absent hmem hsame =>
      rw [hsame]
      simp only [Step.adds, reduceCtorEq, false_or, ne_eq, Step.unset.injEq]
      exact ⟨fun htag ↦ ⟨htag, fun heq ↦ hmem (heq ▸ htag)⟩, And.left⟩
  | permuted hop hpermutes =>
      rw [hpermutes.tags.mem_iff]
      cases op <;> simp_all [Step.adds, Step.ofLookup]

/-- An element that is not in the list and has been used is not put in again. -/
theorem Effect.not_mem {op : Step T R E} (h : Effect s s' op) {e : Ref} (he : e ∉ s.elements)
    (hlt : e < s.entities.fresh) : e ∉ s'.elements ∧ e < s'.entities.fresh := by
  cases h with
  | present hadds hmem helements htagOf hfresh =>
      rw [helements, hfresh]
      exact ⟨he, hlt⟩
  | added hadds hmem helements htag htagOf hfresh =>
      rw [helements, hfresh, List.mem_append, List.mem_singleton]
      exact ⟨not_or.mpr ⟨he, hlt.ne⟩, hlt.trans (Nat.lt_succ_self _)⟩
  | removed hmem htag helements htagOf hfresh =>
      rw [helements, hfresh]
      exact ⟨fun hmem ↦ he (List.mem_of_mem_erase hmem), hlt⟩
  | absent hmem hsame =>
      rw [hsame]
      exact ⟨he, hlt⟩
  | permuted hop hpermutes =>
      rw [hpermutes.perm.mem_iff, hpermutes.fresh]
      exact ⟨he, hlt⟩

theorem Effect.permutes {op : Step T R E} (h : Effect s s' op) (hop : op.ofLookup = true) :
    Permutes s s' := by
  cases h with
  | present hadds => cases hadds.symm.trans (adds_of_ofLookup hop)
  | added hadds => cases hadds.symm.trans (adds_of_ofLookup hop)
  | removed => cases hop
  | absent => cases hop
  | permuted hop hpermutes => exact hpermutes

/-- The tag was passed to `With` or `Add` and has not been unset since. -/
def Added (steps : List (Step T R E)) (tag : T) : Prop :=
  ∃ before op after, steps = before ++ op :: after ∧ op.adds = some tag ∧ ∀ o ∈ after, o ≠ .unset tag

theorem added_concat {steps : List (Step T R E)} {op : Step T R E} {tag : T} :
    Added (steps ++ [op]) tag ↔ op.adds = some tag ∨ Added steps tag ∧ op ≠ .unset tag := by
  constructor
  · rintro ⟨before, o, after, hsplit, hadds, hafter⟩
    rcases List.eq_nil_or_concat after with rfl | ⟨after, last, rfl⟩
    · obtain ⟨-, hlast⟩ := List.append_inj' hsplit rfl
      cases hlast
      exact .inl hadds
    · rw [List.concat_eq_append, ← List.cons_append, ← List.append_assoc] at hsplit
      obtain ⟨rfl, hlast⟩ := List.append_inj' hsplit rfl
      cases hlast
      exact .inr ⟨⟨before, o, after, rfl, hadds, fun o' ho ↦ hafter o' (by simp [ho])⟩,
        hafter op (by simp)⟩
  · rintro (hadds | ⟨⟨before, o, after, rfl, hadds, hafter⟩, hop⟩)
    · exact ⟨steps, op, [], rfl, hadds, fun o ho ↦ by cases ho⟩
    · refine ⟨before, o, after ++ [op], by simp, hadds, fun o' ho ↦ ?_⟩
      rcases List.mem_append.mp ho with ho | ho
      · exact hafter o' ho
      · rwa [List.mem_singleton.mp ho]

theorem wellLinked_new [Inhabited T] [Inhabited R] : WellLinked (.new : System T R) :=
  (wellLinked_of_holds holds_new).1

structure Gone (e : Ref) (s : System T R) : Prop where
  linked : WellLinked s
  not_mem : e ∉ s.elements
  lt_fresh : e < s.entities.fresh

theorem gone_of_unset (h : WellLinked s) (hnodup : s.tags.Nodup) {e : Ref} (he : e ∈ s.elements)
    (heffect : Effect s s' (.unset (s.tagOf e) : Step T R E)) (h' : WellLinked s') : Gone e s' := by
  cases heffect with
  | present hadds => cases hadds
  | added hadds => cases hadds
  | absent hmem => exact absurd (mem_tags.mpr ⟨e, he, rfl⟩) hmem
  | permuted hop => cases hop
  | removed hmem htag helements htagOf hfresh =>
      refine ⟨h', ?_, ?_⟩
      · rw [helements, List.inj_on_of_nodup_map hnodup hmem he htag]
        exact (List.nodup_cons.mp h.nodup).2.not_mem_erase
      · rw [hfresh]
        exact h.lt_fresh e (List.mem_cons_of_mem root he)

variable [DecidableEq T]

theorem search_tag (h : WellLinked s) (tag : T) :
    (s.entities.search (fun entity ↦ entity.tag = tag) = .ok none ∧ tag ∉ s.tags) ∨
      ∃ e, s.entities.search (fun entity ↦ entity.tag = tag) = .ok (some e) ∧ e ∈ s.elements ∧
        s.tagOf e = tag := by
  rw [h.search_eq]
  cases hfind : s.elements.find? fun e ↦ (s.entities.heap e).value.tag = tag with
  | none =>
      refine .inl ⟨rfl, fun hmem ↦ ?_⟩
      obtain ⟨e, he, htag⟩ := mem_tags.mp hmem
      exact List.find?_eq_none.mp hfind e he (decide_eq_true htag)
  | some e =>
      have hp := List.find?_some hfind
      exact .inr ⟨e, rfl, List.mem_of_find?_eq_some hfind, of_decide_eq_true hp⟩

theorem add_effect (h : WellLinked s) (tag : T) (resolver : R) (replace : Bool)
    (op : Step T R E) (hadds : op.adds = some tag) :
    ∃ err entities, add s.entities tag resolver replace = .ok (err, entities) ∧
      WellLinked { s with entities } ∧ Effect s { s with entities } op := by
  rcases search_tag h tag with ⟨hsearch, hmem⟩ | ⟨e, hsearch, he, htag⟩
  · obtain ⟨l, hpush, hholds, hfresh, hnew, hold⟩ := h.pushBack ⟨tag, resolver⟩
    obtain ⟨hlinked, helements⟩ := wellLinked_of_holds (s := { s with entities := l }) hholds
    refine ⟨none, l, ?_, hlinked, .added hadds hmem helements ?_ (fun a ha ↦ ?_) hfresh⟩
    · rw [add, hsearch]
      change (s.entities.pushBack ⟨tag, resolver⟩ >>= _) = _
      rw [hpush]
      rfl
    · exact congrArg Entity.tag hnew
    · exact congrArg Entity.tag (hold a (h.lt_fresh a (List.mem_cons_of_mem root ha)).ne)
  · have hmem : tag ∈ s.tags := mem_tags.mpr ⟨e, he, htag⟩
    cases replace with
    | false =>
        refine ⟨some .alreadyExists, s.entities, ?_, h, .present hadds hmem rfl (fun _ ↦ rfl) rfl⟩
        rw [add, hsearch]
        rfl
    | true =>
        let entity : Entity T R := { (s.entities.heap e).value with resolver }
        obtain ⟨hlinked, helements⟩ := wellLinked_of_holds
          (s := { s with entities := s.entities.setValue e entity }) (h.setValue e entity)
        refine ⟨none, _, ?_, hlinked, .present hadds hmem helements (fun a ↦ ?_) rfl⟩
        · rw [add, hsearch]
          rfl
        · change ((s.entities.setValue e entity).heap a).value.tag = _
          rw [Holds.setValue_heap]
          split_ifs with ha
          · rw [ha]
            rfl
          · rfl

theorem unset_effect (h : WellLinked s) (tag : T) :
    ∃ err entities, unset s.entities tag = .ok (err, entities) ∧
      WellLinked { s with entities } ∧ Effect s { s with entities } (.unset tag : Step T R E) := by
  rcases search_tag h tag with ⟨hsearch, hmem⟩ | ⟨e, hsearch, he, htag⟩
  · refine ⟨some .notExists, s.entities, ?_, h, .absent hmem rfl⟩
    rw [unset, hsearch]
    rfl
  · obtain ⟨l, hremove, hholds, hfresh, hvalue⟩ := h.remove he
    obtain ⟨hlinked, helements⟩ := wellLinked_of_holds (s := { s with entities := l }) hholds
    refine ⟨none, l, ?_, hlinked, .removed he htag helements (fun a ↦ ?_) hfresh⟩
    · rw [unset, hsearch]
      change (s.entities.Remove e >>= _) = _
      rw [hremove]
      rfl
    · exact congrArg Entity.tag (hvalue a)

/-- What a lookup leaves when its first lock is dropped. -/
inductive Searched (s : System T R) (id : CallId) : Option (Ref × Response) → System T R → Prop
  | none : Searched s id none s
  | first {e response} (hfirst : s.elements.head? = some e) : Searched s id (some (e, response)) s
  | behind {e response} : Searched s id (some (e, response))
      { s with moving := Function.update s.moving id (some (e, response)) }

theorem exec_lookup (h : WellLinked s) (id : CallId) (answers : Answers R E)
    (hid : s.moving id = none) :
    ∃ found asked s', exec (.lookup id answers) s = .ok (.asked found asked, s') ∧
      Looked s.elements found asked ∧ Searched s id found s' := by
  obtain ⟨found, asked, hloop, hlooked⟩ := lookupLoop_looked [] s.elements h answers
    s.entities.len.toNat 0 (by simp [h.len])
  have hfront : s.entities.front = s.elements.head? := h.front_eq
  rw [← hfront] at hloop
  refine ⟨found, asked, ?_⟩
  obtain _ | ⟨e, response⟩ := found
  · refine ⟨s, ?_, hlooked, .none⟩
    simp only [exec, hid, hloop]
    rfl
  · by_cases hfirst : s.elements.head? = some e
    · refine ⟨s, ?_, hlooked, .first hfirst⟩
      simp only [exec, hid, hloop]
      exact if_pos (hfront.trans hfirst)
    · refine ⟨_, ?_, hlooked, .behind⟩
      simp only [exec, hid, hloop]
      exact if_neg (hfront ▸ hfirst)

theorem exec_moveToFront (h : WellLinked s) {id : CallId} {e : Ref} {response : Response}
    (hid : s.moving id = some (e, response)) :
    ∃ s', exec (.moveToFront id : Step T R E) s = .ok (.moved response, s') ∧ WellLinked s' ∧
      Permutes s s' ∧
      s'.elements = (if e ∈ s.elements then e :: s.elements.erase e else s.elements) ∧
      s'.moving = Function.update s.moving id none := by
  obtain ⟨l, hmove, hsame, hholds⟩ := h.moveToFront e
  let s' : System T R := ⟨l, Function.update s.moving id none⟩
  obtain ⟨hlinked, helements⟩ := wellLinked_of_holds (s := s') hholds
  refine ⟨s', ?_, hlinked, ⟨?_, hsame.value, hsame.fresh⟩, helements, rfl⟩
  · simp only [exec, hid, hmove]
    rfl
  · rw [helements]
    split_ifs with he
    · exact (List.perm_cons_erase he).symm
    · exact .refl _

theorem exec_effect (h : WellLinked s) (op : Step T R E) :
    ∃ reply s', exec op s = .ok (reply, s') ∧ WellLinked s' ∧ Effect s s' op := by
  cases op with
  | withResolver tag resolver =>
      obtain ⟨err, entities, hadd, hlinked, heffect⟩ :=
        add_effect h tag resolver true (.withResolver tag resolver : Step T R E) rfl
      refine ⟨.returned none, _, ?_, hlinked, heffect⟩
      rw [exec, hadd]
      rfl
  | add tag resolver =>
      obtain ⟨err, entities, hadd, hlinked, heffect⟩ :=
        add_effect h tag resolver false (.add tag resolver : Step T R E) rfl
      refine ⟨.returned err, _, ?_, hlinked, heffect⟩
      rw [exec, hadd]
      rfl
  | unset tag =>
      obtain ⟨err, entities, hunset, hlinked, heffect⟩ := unset_effect h tag
      refine ⟨.returned err, _, ?_, hlinked, heffect⟩
      rw [exec, hunset]
      rfl
  | lookup id answers =>
      cases hid : s.moving id with
      | none =>
          obtain ⟨found, asked, s', hexec, -, hsearched⟩ := exec_lookup h id answers hid
          refine ⟨_, s', hexec, ?_⟩
          cases hsearched with
          | none => exact ⟨h, .permuted rfl (.refl s)⟩
          | first hfirst => exact ⟨h, .permuted rfl (.refl s)⟩
          | behind => exact ⟨h, .permuted rfl ⟨.refl _, fun _ ↦ rfl, rfl⟩⟩
      | some found =>
          refine ⟨.skipped, s, ?_, h, .permuted rfl (.refl s)⟩
          rw [exec, hid]
  | moveToFront id =>
      cases hid : s.moving id with
      | none =>
          refine ⟨.skipped, s, ?_, h, .permuted rfl (.refl s)⟩
          rw [exec, hid]
      | some found =>
          obtain ⟨s', hexec, hlinked, hpermutes, -⟩ := exec_moveToFront h hid
          exact ⟨_, s', hexec, hlinked, .permuted rfl hpermutes⟩

/-! ## Runs -/

/-- Whom the next lookup asks first. -/
theorem asks_first (h : WellLinked s) {e : Ref} (hfirst : s.elements.head? = some e) {id : CallId}
    (hid : s.moving id = none) (answers : Answers R E) :
    ∃ found asked s', exec (.lookup id answers) s = .ok (.asked found asked, s') ∧
      asked.head? = some e := by
  obtain ⟨found, asked, s', hexec, hlooked, -⟩ := exec_lookup h id answers hid
  exact ⟨found, asked, s', hexec, hlooked.first.trans hfirst⟩

theorem moved_asked_first (h : WellLinked s) {id : CallId} {e : Ref} {response : Response}
    (hid : s.moving id = some (e, response)) (he : e ∈ s.elements) {reply : Reply}
    (hmove : exec (.moveToFront id : Step T R E) s = .ok (reply, s')) {id' : CallId}
    (hid' : s'.moving id' = none) (answers : Answers R E) :
    ∃ found asked s₂, exec (.lookup id' answers) s' = .ok (.asked found asked, s₂) ∧
      asked.head? = some e := by
  obtain ⟨s₁, hexec, hlinked, -, helements, -⟩ := exec_moveToFront h hid
  cases hexec.symm.trans hmove
  refine asks_first hlinked ?_ hid' answers
  rw [helements, if_pos he]
  rfl

theorem served_asked_first (h : WellLinked s) {id : CallId} {answers : Answers R E} {e : Ref}
    {response : Response} {asked : List Ref} {s₁ s₂ : System T R}
    (hlookup : exec (.lookup id answers) s = .ok (.asked (some (e, response)) asked, s₁))
    {reply : Reply} (hmove : exec (.moveToFront id : Step T R E) s₁ = .ok (reply, s₂))
    {id' : CallId} (hid' : s₂.moving id' = none) (answers' : Answers R E) :
    ∃ found asked s₃, exec (.lookup id' answers') s₂ = .ok (.asked found asked, s₃) ∧
      asked.head? = some e := by
  cases hid : s.moving id with
  | some found =>
      rw [exec, hid] at hlookup
      cases hlookup
  | none =>
      obtain ⟨found, asked', s₁', hexec, hlooked, hsearched⟩ := exec_lookup h id answers hid
      cases hexec.symm.trans hlookup
      cases hsearched with
      | first hfirst =>
          -- the call has returned, so there is nothing to move
          rw [exec, hid] at hmove
          cases hmove
          exact asks_first h hfirst hid' answers'
      | behind =>
          have he : e ∈ s.elements := hlooked.found_mem e response rfl
          let s₁ : System T R :=
            { s with moving := Function.update s.moving id (some (e, response)) }
          have hlinked : WellLinked s₁ := h
          have hid₁ : s₁.moving id = some (e, response) := Function.update_self ..
          exact moved_asked_first hlinked hid₁ he hmove hid' answers'

/-- An element that has left the list stays out of it. -/
theorem Gone.run {e : Ref} (h : Gone e s) {steps : List (Step T R E)} {replies : List Reply}
    (hrun : runAll exec steps s = .ok (replies, s')) : Gone e s' := by
  have hstep : ∀ (op : Step T R E) (s : System T R), True → Gone e s →
      ∃ reply t, exec op s = .ok (reply, t) ∧ Gone e t := by
    intro op s _ h
    obtain ⟨reply, t, hexec, hlinked, heffect⟩ := exec_effect h.linked op
    obtain ⟨hnot, hlt⟩ := heffect.not_mem h.not_mem h.lt_fresh
    exact ⟨reply, t, hexec, hlinked, hnot, hlt⟩
  obtain ⟨_, t, hrun', ht⟩ := runAll_invariant hstep steps s (fun _ _ ↦ trivial) h
  cases hrun'.symm.trans hrun
  exact ht

structure Tracked (steps : List (Step T R E)) (s : System T R) : Prop where
  linked : WellLinked s
  tags_nodup : s.tags.Nodup
  mem_tags : ∀ tag, tag ∈ s.tags ↔ Added steps tag

theorem run_tracked [Inhabited T] [Inhabited R] {steps : List (Step T R E)} {replies : List Reply}
    (hrun : runAll exec steps .new = .ok (replies, s)) : Tracked steps s := by
  have hnew : Tracked ([] : List (Step T R E)) (.new : System T R) := by
    refine ⟨wellLinked_new, List.nodup_nil, fun tag ↦ iff_of_false List.not_mem_nil ?_⟩
    rintro ⟨before, op, after, hsplit, -⟩
    simp at hsplit
  refine runAll_history hnew (fun steps s op reply t rs _ h hexec ↦ ?_) hrun
  obtain ⟨reply', t', hexec', hlinked, heffect⟩ := exec_effect h.linked op
  cases hexec'.symm.trans hexec
  refine ⟨hlinked, heffect.tags_nodup h.tags_nodup, fun tag ↦ ?_⟩
  rw [heffect.mem_tags h.tags_nodup, h.mem_tags, added_concat]

/-- What holds of the resolver after the given steps. -/
structure Orderly (steps : List (Step T R E)) (s : System T R) : Prop where
  tags_nodup : s.tags.Nodup
  mem_tags : ∀ tag, tag ∈ s.tags ↔ Added steps tag
  -- a step of a lookup changes the order at most
  permutes : ∀ (op : Step T R E) reply s', op.ofLookup = true → exec op s = .ok (reply, s') →
    Permutes s s'
  -- an element that is unset stays out, whatever is done to it afterwards
  unset_gone : ∀ e ∈ s.elements, ∀ (later : List (Step T R E)) replies s',
    runAll exec (.unset (s.tagOf e) :: later) s = .ok (replies, s') → e ∉ s'.elements
  -- the element that has served a lookup is the first that the next one asks
  served_first : ∀ id (answers : Answers R E) e response asked s₁,
    exec (.lookup id answers) s = .ok (.asked (some (e, response)) asked, s₁) →
    ∀ reply s₂, exec (.moveToFront id : Step T R E) s₁ = .ok (reply, s₂) →
    ∀ id' (answers' : Answers R E), s₂.moving id' = none →
      ∃ found asked s₃, exec (.lookup id' answers') s₂ = .ok (.asked found asked, s₃) ∧
        asked.head? = some e
  -- and so it is whatever was done between the two locks, as long as it was not unset
  moved_first : ∀ id e response, s.moving id = some (e, response) → e ∈ s.elements →
    ∀ reply s₁, exec (.moveToFront id : Step T R E) s = .ok (reply, s₁) →
    ∀ id' (answers : Answers R E), s₁.moving id' = none →
      ∃ found asked s₂, exec (.lookup id' answers) s₁ = .ok (.asked found asked, s₂) ∧
        asked.head? = some e

theorem run_orderly [Inhabited T] [Inhabited R] (steps : List (Step T R E)) :
    ∃ replies s, runAll exec steps .new = .ok (replies, s) ∧ Orderly steps s := by
  obtain ⟨replies, s, hrun, -⟩ := runAll_invariant (P := fun _ ↦ True)
    (fun op s _ h ↦ by
      obtain ⟨reply, t, hexec, hlinked, -⟩ := exec_effect h op
      exact ⟨reply, t, hexec, hlinked⟩)
    steps (.new : System T R) (fun _ _ ↦ trivial) wellLinked_new
  have htracked := run_tracked hrun
  have hlinked := htracked.linked
  refine ⟨replies, s, hrun, htracked.tags_nodup, htracked.mem_tags, ?_, ?_, ?_, ?_⟩
  · intro op reply s' hop hexec
    obtain ⟨_, _, hexec', -, heffect⟩ := exec_effect hlinked op
    cases hexec'.symm.trans hexec
    exact heffect.permutes hop
  · intro e he later replies s' hrun'
    obtain ⟨_, s₁, _, hunset, hlater, -⟩ := runAll_cons_eq_ok_iff.mp hrun'
    obtain ⟨_, _, hunset', hlinked₁, heffect⟩ := exec_effect hlinked (.unset (s.tagOf e) : Step T R E)
    cases hunset'.symm.trans hunset
    have hgone := gone_of_unset hlinked htracked.tags_nodup he heffect hlinked₁
    exact (hgone.run hlater).not_mem
  · intro id answers e response asked s₁ hlookup reply s₂ hmove id' answers' hid'
    exact served_asked_first hlinked hlookup hmove hid' answers'
  · intro id e response hid he reply s₁ hmove id' answers hid'
    exact moved_asked_first hlinked hid he hmove hid' answers

end CommonLib.XDNS.Client.LastActive
