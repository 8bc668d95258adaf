import CommonLib.XDNS.DNSBase.Rows
import CommonLib.Reasoning.Run

/-!
# Rules under deletions

Whatever has been written and deleted, a lookup answers with a rule that was accepted and none of
whose rows has been deleted since.
-/

namespace CommonLib.XDNS.DNSBase

open CommonLib.Reasoning

inductive Op
  | write (fails : Nat → Bool) (domain : GoString) (cats : Categories)
  | delete (failed : Bool) (id : Int)

inductive Reply
  | written (err : Option WriteError)
  | deleted (err : Option DeleteError)

def exec : Op → Table → Except Crash (Reply × Table)
  | .write fails domain cats, t => do
      let (err, t) ← write fails t domain cats
      return (.written err, t)
  | .delete failed id, t =>
      let (err, t) := delete failed t id
      return (.deleted err, t)

/-- A `Write` of the history that returned nil. -/
structure AcceptedWrite (ops : List Op) where
  before : List Op
  fails : Nat → Bool
  domain : GoString
  cats : Categories
  after : List Op
  replies : List Reply
  prior : Table
  written : Table
  split : ops = before ++ .write fails domain cats :: after
  reached : runAll exec before [] = .ok (replies, prior)
  accepted : write fails prior domain cats = .ok (none, written)

variable {ops : List Op} {t t' : Table} {p : List GoString}

theorem AcceptedWrite.mem (w : AcceptedWrite ops) : .write w.fails w.domain w.cats ∈ ops := by
  have hmem : .write w.fails w.domain w.cats ∈ w.before ++ .write w.fails w.domain w.cats :: w.after := by
    simp
  exact Eq.mpr (congrArg (fun l ↦ .write w.fails w.domain w.cats ∈ l) w.split) hmem

/-- No row that the rule goes through has been deleted since. -/
def AcceptedWrite.Undeleted (w : AcceptedWrite ops) : Prop :=
  ∀ q, q <:+ labels w.domain → q ≠ [] → ∃ r, w.written.node q = some r ∧ .delete false r.id ∉ w.after

/-- The rows of the rule are those it was written to. -/
def AcceptedWrite.Stands (w : AcceptedWrite ops) (t : Table) : Prop :=
  ∀ q, q <:+ labels w.domain → q ≠ [] → ∃ r₁ r, w.written.node q = some r₁ ∧ t.node q = some r ∧
    r.id = r₁.id ∧ .delete false r.id ∉ w.after

theorem AcceptedWrite.Stands.undeleted {w : AcceptedWrite ops} (h : w.Stands t) : w.Undeleted := by
  intro q hq hne
  obtain ⟨r₁, r, hr₁, -, hid, hnot⟩ := h q hq hne
  exact ⟨r₁, hr₁, hid ▸ hnot⟩

def AcceptedWrite.extend (w : AcceptedWrite ops) (op : Op) : AcceptedWrite (ops ++ [op]) where
  before := w.before
  fails := w.fails
  domain := w.domain
  cats := w.cats
  after := w.after ++ [op]
  replies := w.replies
  prior := w.prior
  written := w.written
  split := by
    have hsplit := congrArg (· ++ [op]) w.split
    simpa using hsplit
  reached := w.reached
  accepted := w.accepted

/-- A rule stands as long as its rows stay where they are and are not deleted. -/
theorem AcceptedWrite.Stands.extend {w : AcceptedWrite ops} (h : w.Stands t) {op : Op}
    (hkept : ∀ q r, q <:+ labels w.domain → q ≠ [] → t.node q = some r →
      ∃ r', t'.node q = some r' ∧ r'.id = r.id ∧ .delete false r.id ≠ op) :
    (w.extend op).Stands t' := by
  intro q hq hne
  obtain ⟨r₁, r, hr₁, hr, hid, hnot⟩ := h q hq hne
  obtain ⟨r', hr', hid', hop⟩ := hkept q r hq hne hr
  refine ⟨r₁, r', hr₁, hr', hid'.trans hid, ?_⟩
  rw [hid']
  intro hmem
  rcases List.mem_append.mp hmem with hmem | hmem
  · exact hnot hmem
  · exact hop (List.mem_singleton.mp hmem)

structure Accounted (ops : List Op) (t : Table) : Prop where
  linked : Linked t
  stands : ∀ p r s, t.node p = some r → r.category = some s →
    ∃ w : AcceptedWrite ops, w.Stands t ∧ labels w.domain = p ∧ w.cats.value = some s
  star_category : ∀ p r, t.node (star :: p) = some r → r.category.isSome

theorem accounted_empty : Accounted [] [] where
  linked := Linked.empty
  stands p r s hr hs := by
    cases p with
    | nil =>
        cases hr
        cases hs
    | cons name p => cases node_mem (List.cons_ne_nil _ _) hr
  star_category p r hr := by
    cases node_mem (List.cons_ne_nil _ _) hr

theorem Accounted.delete (h : Accounted ops t) (id : Int) :
    Accounted (ops ++ [.delete false id]) (t.filter fun r ↦ (r.id : Int) ≠ id) where
  linked := h.linked.delete _
  stands p r s hr hs := by
    obtain ⟨w, hstands, rfl, hvalue⟩ := h.stands p r s (h.linked.node_of_delete hr) hs
    refine ⟨w.extend _, hstands.extend fun q r₀ hq hne hr₀ ↦ ?_, rfl, hvalue⟩
    -- the name is still found, so every row it goes through is still there
    obtain ⟨r', hr'⟩ := Option.isSome_iff_exists.mp
      (node_isSome_of_suffix (by rw [hr]; rfl) hq)
    cases hr₀.symm.trans (h.linked.node_of_delete hr')
    have hkeep := List.of_mem_filter (node_mem hne hr')
    refine ⟨r₀, hr', rfl, fun heq ↦ ?_⟩
    simp only [Op.delete.injEq] at heq
    simp [heq.2] at hkeep
  star_category p r hr := h.star_category p r (h.linked.node_of_delete hr)

/-- An operation that leaves the table as it is. -/
theorem Accounted.unchanged (h : Accounted ops t) {op : Op} (hop : ∀ id, op ≠ .delete false id) :
    Accounted (ops ++ [op]) t where
  linked := h.linked
  stands p r s hr hs := by
    obtain ⟨w, hstands, hlabels, hvalue⟩ := h.stands p r s hr hs
    exact ⟨w.extend op, hstands.extend fun q r₀ _ _ hr₀ ↦ ⟨r₀, hr₀, rfl, (hop _).symm⟩, hlabels,
      hvalue⟩
  star_category := h.star_category

theorem Accounted.write (h : Accounted ops t) {rs : List Reply}
    (hrun : runAll exec ops [] = .ok (rs, t)) {fails : Nat → Bool} {domain : GoString}
    {cats : Categories}
    (hwrite : write fails t domain cats = .ok (none, t')) (hstored : Stored t t' domain cats) :
    Accounted (ops ++ [.write fails domain cats]) t' where
  linked := hstored.wrote.linked
  stands p r s hr hs := by
    obtain ⟨last, hlast, hcat, hsame⟩ := hstored.wrote.last
    by_cases hp : p = labels domain
    · subst hp
      cases hlast.symm.trans hr
      let w : AcceptedWrite (ops ++ [.write fails domain cats]) :=
        ⟨ops, fails, domain, cats, [], rs, t, t', rfl, hrun, hwrite⟩
      refine ⟨w, fun q hq _ ↦ ?_, rfl, hcat.symm.trans hs⟩
      obtain ⟨r', hr'⟩ := Option.isSome_iff_exists.mp
        (node_isSome_of_suffix (by rw [hr]; rfl) hq)
      exact ⟨r', r', hr', hr', rfl, List.not_mem_nil⟩
    · rcases hstored.wrote.added p r hp hr with hold | ⟨-, -, hnone⟩
      · obtain ⟨w, hstands, hlabels, hvalue⟩ := h.stands p r s hold hs
        refine ⟨w.extend _, hstands.extend fun q r₀ _ _ hr₀ ↦ ?_, hlabels, hvalue⟩
        by_cases hq : q = labels domain
        · subst hq
          exact ⟨last, hlast, hsame r₀ hr₀, Op.noConfusion⟩
        · exact ⟨r₀, hstored.wrote.kept q r₀ hq hr₀, rfl, Op.noConfusion⟩
      · rw [hs] at hnone
        cases hnone
  star_category p r hr := by
    obtain ⟨last, hlast, hcat, -⟩ := hstored.wrote.last
    by_cases hp : star :: p = labels domain
    · rw [hp] at hr
      cases hlast.symm.trans hr
      rw [hcat, Categories.value, if_neg (by simpa using hstored.cats_ne)]
      rfl
    · rcases hstored.wrote.added _ r hp hr with hold | ⟨-, ⟨pre, hpre⟩, -⟩
      · exact h.star_category p r hold
      · -- an inner label of an accepted name is not `*`
        cases pre with
        | nil => exact absurd hpre hp
        | cons l pre =>
            apply absurd _ hstored.star_first
            rw [← hpre]
            simp

theorem accounted_run {rs : List Reply} (hrun : runAll exec ops [] = .ok (rs, t)) :
    Accounted ops t := by
  refine runAll_history accounted_empty ?_ hrun
  intro ops t op reply t' rs hops h hop
  cases op with
  | write fails domain cats =>
      rcases hwrite : write fails t domain cats with crash | ⟨err, u⟩
      · rw [exec, hwrite] at hop
        cases hop
      · rw [exec, hwrite] at hop
        cases hop
        rcases h.linked.write_cases hwrite with rfl | ⟨rfl, hstored⟩
        · exact h.unchanged fun _ ↦ Op.noConfusion
        · exact h.write hops hwrite hstored
  | delete failed id =>
      cases hop
      cases failed with
      | true => exact h.unchanged fun id' heq ↦ by simp at heq
      | false => exact h.delete id

/-- The name is the rule's own, or the rule is the wildcard of a name above it. -/
def Covers (rule n : List GoString) : Prop :=
  rule = n ∨ ∃ q, rule = star :: q ∧ q <:+ n ∧ q ≠ n

theorem Accounted.covers (h : Accounted ops t) {n : List GoString} {d : Domain}
    (hanswer : Answer t n d) :
    ∃ w : AcceptedWrite ops, w.Stands t ∧ Covers (labels w.domain) n ∧ w.cats ≠ [] ∧
      d.categories = Categories.scan w.cats.value := by
  have hne : ∀ {cats : Categories} {s : GoString}, cats.value = some s → cats ≠ [] := by
    rintro _ s hvalue rfl
    cases hvalue
  rcases hanswer with ⟨⟨r, hr, -, hcat⟩, hchild⟩ | ⟨q, -, ⟨-, hsuffix, hnot⟩, ⟨r, hr, -, hcat⟩⟩
  · cases hs : r.category with
    | none =>
        rw [Domain.isChild, hcat, hs] at hchild
        cases hchild
    | some s =>
        obtain ⟨w, hstands, hlabels, hvalue⟩ := h.stands n r s hr hs
        exact ⟨w, hstands, .inl hlabels, hne hvalue, by rw [hcat, hs, hvalue]⟩
  · obtain ⟨s, hs⟩ := Option.isSome_iff_exists.mp (h.star_category q r hr)
    obtain ⟨w, hstands, hlabels, hvalue⟩ := h.stands _ r s hr hs
    exact ⟨w, hstands, .inr ⟨q, hlabels, hsuffix, hnot⟩, hne hvalue, by rw [hcat, hs, hvalue]⟩

theorem lookup_undeleted (ops : List Op) (rs : List Reply) (t : Table)
    (hrun : runAll exec ops [] = .ok (rs, t)) (name : GoString) (found : Domain × List Domain)
    (hlookup : lookup t name = .ok (.ok found)) :
    ∃ w : AcceptedWrite ops, w.Undeleted ∧ Covers (labels w.domain) (labels name) ∧
      found.1.categories = Categories.scan w.cats.value ∧
      ((∀ c ∈ w.cats, c ≠ [] ∧ comma ∉ c) → found.1.categories = some w.cats) := by
  obtain ⟨w, hstands, hcovers, hne, hcats⟩ := (accounted_run hrun).covers (lookup_answer hlookup)
  exact ⟨w, hstands.undeleted, hcovers, hcats, fun hplain ↦ hcats.trans (scan_value hne hplain)⟩

/-- `*.b` and `a.b` are written and the row of `a` is deleted; a lookup of `a.b` then finds the
categories of `*.b`. -/
theorem lookup_undeleted_wildcard :
    ∃ ops rs t found, ∃ w : AcceptedWrite ops, runAll exec ops [] = .ok (rs, t) ∧
      ops = [.write noFaults [42, 46, 98] [[99]], .write noFaults [97, 46, 98] [[100]],
        .delete false 3] ∧
      lookup t [97, 46, 98] = .ok (.ok found) ∧ found.1.categories = some [[99]] ∧
      w.Undeleted ∧ found.1.categories = Categories.scan w.cats.value := by
  obtain ⟨w, hundeleted, -, hcats, -⟩ := lookup_undeleted [.write noFaults [42, 46, 98] [[99]],
    .write noFaults [97, 46, 98] [[100]], .delete false 3] _ _ rfl [97, 46, 98] _ rfl
  exact ⟨_, _, _, _, w, rfl, rfl, rfl, rfl, hundeleted, hcats⟩

/-- The one category `x,y` of `a.b` comes back as the two categories `x` and `y`, which no `Write`
was given. -/
theorem comma_splits_category :
    ∃ ops rs t found, runAll exec ops [] = .ok (rs, t) ∧ lookup t [97, 46, 98] = .ok (.ok found) ∧
      found.1.categories = some [[120], [121]] ∧
      ∀ w : AcceptedWrite ops, w.cats ≠ [[120], [121]] := by
  refine ⟨[.write noFaults [97, 46, 98] [[120, 44, 121]]], _, _, _, rfl, rfl, rfl, fun w ↦ ?_⟩
  have hop := List.mem_singleton.mp w.mem
  simp only [Op.write.injEq] at hop
  rw [hop.2.2]
  decide

end CommonLib.XDNS.DNSBase
