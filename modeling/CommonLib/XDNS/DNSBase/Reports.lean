import CommonLib.XDNS.DNSBase.Deletions

/-!
# What `Write` reports

Whichever statements fail, an error means that the committed table is as it was.  That nothing was
returned means that the rule is stored, if the commit has not failed.
-/

namespace CommonLib.XDNS.DNSBase

open CommonLib.Reasoning

variable {t t' : Table} {fails : Nat → Bool} {domain : GoString} {cats : Categories}

/-- The table has the rule, with these categories in its column. -/
def HasStored (t : Table) (domain : GoString) (cats : Categories) : Prop :=
  cats ≠ [] ∧ ∃ r, t.node (labels domain) = some r ∧ r.category = cats.value

/-- The commit does not fail, if `Write` comes to it. -/
def Commits (fails : Nat → Bool) (t : Table) (domain : GoString) (cats : Categories) : Prop :=
  ∀ d written pid k, normalizeDomain domain = .ok d →
    writeLoop fails d cats (labels domain).reverse 1 t 0 = .ok (written, pid, k) →
    fails (k + 1) = false

theorem commits_of_loop {d : GoString} {written : Table} {pid k : Nat}
    (hd : normalizeDomain domain = .ok d)
    (hloop : writeLoop fails d cats (labels domain).reverse 1 t 0 = .ok (written, pid, k))
    (hcommit : fails (k + 1) = false) : Commits fails t domain cats := by
  intro d' written' pid' k' hd' hloop'
  cases hd.symm.trans hd'
  cases hloop.symm.trans hloop'
  exact hcommit

theorem Stored.hasStored (h : Stored t t' domain cats) : HasStored t' domain cats := by
  obtain ⟨r, hr, hcat, -⟩ := h.wrote.last
  exact ⟨h.cats_ne, r, hr, hcat⟩

theorem normalizeDomain_returns (hne : domain ≠ []) : ∃ d, normalizeDomain domain = .ok d := by
  unfold normalizeDomain
  rw [List.getLast?_eq_getLast_of_ne_nil hne]
  exact ⟨_, rfl⟩

/-- The update finds the row that the loop has reached. -/
theorem Linked.update_returns (h : Linked t) (hcats : cats ≠ []) {d : GoString} {written : Table}
    {parts : List GoString} {pid k : Nat} (hparts : parts ≠ [])
    (hloop : writeLoop fails d cats parts.reverse 1 t 0 = .ok (written, pid, k)) (failed : Bool) :
    ∃ res, updateRecordCategories written pid cats failed = .ok res := by
  have hroot : t.node [] = some rootRow := rfl
  obtain ⟨last, rfl, hgrown⟩ := writeLoop_grown h hroot hloop
  rw [List.reverse_reverse, List.append_nil] at hgrown
  exact ⟨_, updateRecordCategories_of_mem hgrown.linked.ids_nodup (node_mem hparts hgrown.reached)
    (hgrown.linked.id_pos hparts hgrown.reached).ne' hcats failed⟩

theorem Linked.write_returns (h : Linked t) (hne : domain ≠ []) (fails : Nat → Bool)
    (cats : Categories) : ∃ err t', write fails t domain cats = .ok (err, t') := by
  obtain ⟨d, hd⟩ := normalizeDomain_returns hne
  unfold write
  rw [hd]
  dsimp only [bind, Except.bind]
  cases hcheck : validateDomain (d.split dot) with
  | some err => exact ⟨_, _, rfl⟩
  | none =>
      dsimp only
      split
      · exact ⟨_, _, rfl⟩
      next hcats =>
        split
        · exact ⟨_, _, rfl⟩
        · rcases hloop : writeLoop fails d cats (d.split dot).reverse 1 t 0 with
            err | ⟨written, pid, k⟩
          · exact ⟨_, _, rfl⟩
          · have hparts : d.split dot ≠ [] := List.splitOn_ne_nil dot d
            obtain ⟨res, hres⟩ := h.update_returns (by simpa using hcats) hparts hloop (fails k)
            dsimp only
            rw [hres]
            cases res with
            | error err => exact ⟨_, _, rfl⟩
            | ok updated => exact ⟨_, _, rfl⟩

/-- `Write` of a name that is not empty returns.  Unless the commit fails it returns nil exactly if
the rule is stored afterwards, except where it was stored before; an error, or a commit that fails,
leaves the table as it was. -/
theorem write_reports (ops : List Op) (rs : List Reply) (t : Table)
    (hrun : runAll exec ops [] = .ok (rs, t)) (fails : Nat → Bool) (domain : GoString)
    (hne : domain ≠ []) (cats : Categories) :
    ∃ err t', write fails t domain cats = .ok (err, t') ∧
      (Commits fails t domain cats → err = none → HasStored t' domain cats) ∧
      (HasStored t' domain cats → err = none ∨ HasStored t domain cats) ∧
      (err ≠ none ∨ ¬ Commits fails t domain cats → t' = t) := by
  have hlinked := (accounted_run hrun).linked
  obtain ⟨err, t', hwrite⟩ := hlinked.write_returns hne fails cats
  refine ⟨err, t', hwrite, ?_⟩
  obtain ⟨herr, rfl⟩ |
    ⟨rfl, hcats, hvalid, d, written, pid, k, updated, hd, hloop, hupdate, rfl⟩ := write_inv hwrite
  · exact ⟨fun _ hnone ↦ absurd hnone herr, .inr, fun _ ↦ rfl⟩
  · refine ⟨fun hcommits _ ↦ ?_, fun _ ↦ .inl rfl, fun hnot ↦ ?_⟩
    · rw [hcommits d written pid k hd hloop]
      exact (hlinked.stored hcats hvalid hloop hupdate).hasStored
    · have hfails : fails (k + 1) = true := by
        by_contra hcommit
        refine hnot.elim (fun herr ↦ herr rfl) fun hfailed ↦ hfailed ?_
        exact commits_of_loop hd hloop (Bool.eq_false_iff.mpr hcommit)
      rw [hfails, if_pos rfl]

/-- The rule `a.b` on an empty table, with a statement failing after the row of `b`. -/
theorem write_reports_failed_lookup :
    ∃ err t', write (fun k ↦ k == 3) [] [97, 46, 98] [[99]] = .ok (err, t') ∧
      (Commits (fun k ↦ k == 3) [] [97, 46, 98] [[99]] → err = none →
        HasStored t' [97, 46, 98] [[99]]) ∧
      (HasStored t' [97, 46, 98] [[99]] → err = none ∨ HasStored [] [97, 46, 98] [[99]]) ∧
      (err ≠ none ∨ ¬ Commits (fun k ↦ k == 3) [] [97, 46, 98] [[99]] → t' = []) :=
  write_reports [] [] [] rfl (fun k ↦ k == 3) [97, 46, 98] (by decide) [[99]]

/-- A rule that is stored is refused the next time.  A failed commit is not reported.  The empty
name has no last byte. -/
theorem write_misreports :
    (∃ rs t, runAll exec [.write noFaults [97, 46, 98] [[99]]] [] = .ok (rs, t) ∧
      HasStored t [97, 46, 98] [[99]] ∧
      write noFaults t [97, 46, 98] [[99]] = .ok (some (.alreadyExists [97, 46, 98]), t)) ∧
    (write (fun k ↦ k == 6) [] [97, 46, 98] [[99]] = .ok (none, []) ∧
      ¬ HasStored [] [97, 46, 98] [[99]]) ∧
    write noFaults [] [] [[99]] = .error .indexOutOfRange := by
  refine ⟨⟨_, _, rfl, ⟨by decide, _, rfl, rfl⟩, rfl⟩, ⟨rfl, ?_⟩, rfl⟩
  rintro ⟨-, r, hr, -⟩
  cases hr

end CommonLib.XDNS.DNSBase
