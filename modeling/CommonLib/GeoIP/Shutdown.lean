import CommonLib.GeoIP.Lookups

/-!
# What `Shutdown` leaves

`Shutdown` clears the pointer before it stops `run`.  A reload that swaps in its database after that
revives the instance, and a second `Shutdown` that finds the pointer nil returns while the first is
still at work.
-/

namespace CommonLib.GeoIP

open CommonLib.Reasoning

variable {IP : Type}

/-- A reload swaps its database in only while the pointer is not nil, and a `Shutdown` finds it nil
only when no other one is at work. -/
def Event.Orderly (s : System IP) : Event IP → Prop
  | .install => s.dbCountry ≠ none
  | .shutdown => s.dbCountry = none → s.shutdowns = 0
  | _ => True

/-- The database with which the call has yet to close `stop`. -/
def Shutdown.unstopped : Shutdown → Option DbRef
  | .swapped db => some db
  | .waiting _ => none

namespace System

/-- Once a `Shutdown` has returned, the instance is not running and all its readers are closed. -/
def Stopped (s : System IP) : Prop :=
  s.returned ≠ [] → s.running = false ∧ ∀ db, (s.dbs db).reader = none

/-! ## Orderly runs -/

/-- How far the instance is on its way down. -/
inductive Stage (s : System IP) : Prop
  | running {db : DbRef} (hdb : s.dbCountry = some db) (hcalls : s.shutdowns = 0)
      (hstop : s.stop = false) (hreturned : s.returned = [])
  | swapped {db : DbRef} (hdb : s.dbCountry = none) (hcalls : s.shutdowns = {.swapped db})
      (hstop : s.stop = false) (hreturned : s.returned = [])
  | waiting {db : DbRef} (hdb : s.dbCountry = none) (hcalls : s.shutdowns = {.waiting db})
      (hstop : s.stop = true) (hreturned : s.returned = [])
  | stopped (hdb : s.dbCountry = none) (hcalls : s.shutdowns = 0) (hphase : s.phase = .finished)

theorem Stage.of_some {s : System IP} (h : Stage s) {db : DbRef} (hdb : s.dbCountry = some db) :
    s.shutdowns = 0 ∧ s.stop = false ∧ s.returned = [] := by
  cases h with
  | running _ hcalls hstop hreturned => exact ⟨hcalls, hstop, hreturned⟩
  | swapped hnone | waiting hnone | stopped hnone =>
      rw [hdb] at hnone
      cases hnone

theorem Stage.of_swapped {s : System IP} (h : Stage s) {db : DbRef}
    (hcall : .swapped db ∈ s.shutdowns) :
    s.dbCountry = none ∧ s.shutdowns = {.swapped db} ∧ s.stop = false ∧ s.returned = [] := by
  cases h with
  | swapped hdb hcalls hstop hreturned =>
      rw [hcalls, Multiset.mem_singleton] at hcall
      exact ⟨hdb, hcall ▸ hcalls, hstop, hreturned⟩
  | running _ hcalls | waiting _ hcalls | stopped _ hcalls => simp [hcalls] at hcall

theorem Stage.of_waiting {s : System IP} (h : Stage s) {db : DbRef}
    (hcall : .waiting db ∈ s.shutdowns) : s.dbCountry = none ∧ s.shutdowns = {.waiting db} := by
  cases h with
  | waiting hdb hcalls =>
      rw [hcalls, Multiset.mem_singleton] at hcall
      exact ⟨hdb, hcall ▸ hcalls⟩
  | running _ hcalls | swapped _ hcalls | stopped _ hcalls => simp [hcalls] at hcall

structure Descends (s : System IP) : Prop where
  stage : Stage s
  finished : s.phase = .finished → s.stop = true
  panicked : s.panicked = false

theorem Descends.stopped {s : System IP} (h : Descends s) (hinv : Inv s) : Stopped s := by
  intro hreturned
  cases h.stage with
  | running _ _ _ hnone | swapped _ _ _ hnone | waiting _ _ _ hnone => exact absurd hnone hreturned
  | stopped hdb hcalls hphase =>
      have hnobody : s.owners = 0 := by simp [owners, owned, hdb, hcalls, hphase, Phase.db]
      refine ⟨by rw [running, hdb]; rfl, fun db ↦ ?_⟩
      by_contra hopen
      have hmem := hinv.owned db (Option.isSome_iff_ne_none.mpr hopen)
      rw [hnobody] at hmem
      exact Multiset.notMem_zero db hmem

/-- Steps that touch none of what the stages look at. -/
theorem Descends.same {s t : System IP} (h : Descends s) (hdb : t.dbCountry = s.dbCountry)
    (hcalls : t.shutdowns = s.shutdowns) (hstop : t.stop = s.stop)
    (hreturned : t.returned = s.returned) (hpanicked : t.panicked = s.panicked)
    (hbefore : s.phase = .finished → t.phase = .finished)
    (hafter : t.phase = .finished → s.stop = true) : Descends t := by
  refine ⟨?_, fun hphase ↦ hstop ▸ hafter hphase, hpanicked ▸ h.panicked⟩
  cases h.stage with
  | running hdb' hcalls' hstop' hreturned' =>
      exact .running (hdb ▸ hdb') (hcalls ▸ hcalls') (hstop ▸ hstop') (hreturned ▸ hreturned')
  | swapped hdb' hcalls' hstop' hreturned' =>
      exact .swapped (hdb ▸ hdb') (hcalls ▸ hcalls') (hstop ▸ hstop') (hreturned ▸ hreturned')
  | waiting hdb' hcalls' hstop' hreturned' =>
      exact .waiting (hdb ▸ hdb') (hcalls ▸ hcalls') (hstop ▸ hstop') (hreturned ▸ hreturned')
  | stopped hdb' hcalls' hphase' => exact .stopped (hdb ▸ hdb') (hcalls ▸ hcalls') (hbefore hphase')

section Orderly

variable [DecidableEq IP]

theorem descends_taken {s t : System IP} {e : Event IP} (h : Descends s) (he : e.Orderly s)
    (htaken : Taken s e t) : Descends t := by
  cases htaken with
  | getStopped | getCountry | findClosed | rlock | answer =>
      exact h.same rfl rfl rfl rfl rfl id h.finished
  | tick hphase | loadFile _ hphase | loadNothing _ hphase | closeOld _ hphase =>
      refine h.same rfl rfl rfl rfl rfl (fun hfinished ↦ ?_) (fun hfinished ↦ ?_)
      · exact absurd (hphase.symm.trans hfinished) (by simp)
      · cases hfinished
  | receiveStop hphase hstop =>
      refine h.same rfl rfl rfl rfl rfl (fun hfinished ↦ ?_) fun _ ↦ hstop
      exact absurd (hphase.symm.trans hfinished) (by simp)
  | install hphase hdb =>
      obtain ⟨hcalls, hstop, hreturned⟩ := h.stage.of_some hdb
      exact ⟨.running rfl hcalls hstop hreturned, Phase.noConfusion, h.panicked⟩
  | installLate hphase hdb => exact absurd hdb he
  | shutdownAgain hdb =>
      refine ⟨?_, h.finished, h.panicked⟩
      have hnobody := he hdb
      cases h.stage with
      | running hsome =>
          rw [hdb] at hsome
          cases hsome
      | swapped _ hcalls | waiting _ hcalls => simp [hcalls] at hnobody
      | stopped _ hcalls hphase => exact .stopped hdb hcalls hphase
  | @shutdown db hdb =>
      obtain ⟨hcalls, hstop, hreturned⟩ := h.stage.of_some hdb
      have hone : Shutdown.swapped db ::ₘ s.shutdowns = {.swapped db} := by
        rw [hcalls]
        rfl
      exact ⟨.swapped rfl hone hstop hreturned, h.finished, h.panicked⟩
  | closeTwice hcall hstop =>
      obtain ⟨-, -, hopen, -⟩ := h.stage.of_swapped hcall
      rw [hopen] at hstop
      cases hstop
  | @closeStop db hcall hstop =>
      obtain ⟨hdb, hcalls, -, hreturned⟩ := h.stage.of_swapped hcall
      have hone : Shutdown.waiting db ::ₘ s.shutdowns.erase (.swapped db) = {.waiting db} := by
        rw [hcalls, Multiset.erase_singleton]
        rfl
      exact ⟨.waiting hdb hone rfl hreturned, fun _ ↦ rfl, h.panicked⟩
  | closeLast err result hcall hphase hlocked =>
      obtain ⟨hdb, hcalls⟩ := h.stage.of_waiting hcall
      refine ⟨.stopped hdb ?_ hphase, h.finished, h.panicked⟩
      rw [hcalls]
      exact Multiset.erase_singleton _

/-- In every state of an orderly run: once a `Shutdown` has returned, `Running` is false and every
reader that was opened has been closed. -/
theorem stopped_of_orderly {file : File IP} {s : System IP} (hs : newGeoip file = .ok s)
    (es : List (Event IP)) (h : EveryStep step Event.Orderly es s) :
    EveryState step Stopped es s := by
  obtain ⟨reader, modTime, rfl, -⟩ := newGeoip_eq_ok hs
  refine (h.everyState (P := fun s ↦ Inv s ∧ Descends s) (fun s e t hs he hstep ↦ ?_) ?_).imp
    fun s hs ↦ hs.2.stopped hs.1
  · exact ⟨inv_step s e t hs.1 hstep, descends_taken hs.2 he (step_taken hstep)⟩
  · exact ⟨inv_start reader modTime, .running rfl rfl rfl rfl, Phase.noConfusion, rfl⟩

/-- A reload before `Shutdown`, and a second `Shutdown` after it. -/
theorem stopped_reloadBefore :
    ∃ s, newGeoip (goodFile 1) = .ok s ∧
      EveryState step Stopped
        [.tick, .load (goodFile 2), .install, .closeOld none, .shutdown, .closeStop 1, .receiveStop,
          .closeLast 1 none, .shutdown] s := by
  have hstart : newGeoip (goodFile 1) = .ok (start (some fun _ ↦ .ok "DE") 1) := rfl
  refine ⟨_, hstart, stopped_of_orderly hstart _ ?_⟩
  refine .cons rfl trivial (.cons rfl trivial (.cons rfl (by simp [Event.Orderly, start])
    (.cons rfl trivial (.cons rfl (fun hnone ↦ by cases hnone) (.cons rfl trivial
      (.cons rfl trivial (.cons rfl trivial ?_)))))))
  exact .cons rfl (fun _ ↦ rfl) trivial

/-- A reload that is at work when `Shutdown` clears the pointer: after `Shutdown` has returned the
instance is running, with an open reader. -/
theorem late_reload_revives :
    ∃ s t, newGeoip (goodFile 1) = .ok s ∧
      runSteps step
        [.tick, .load (goodFile 2), .shutdown, .closeStop 0, .install, .receiveStop,
          .closeLast 0 none] s = some t ∧
      t.returned = [.ok ()] ∧ t.shutdowns = 0 ∧ t.phase = .finished ∧ t.running = true ∧
      (t.dbs 1).reader.isSome ∧ ¬ Stopped t := by
  refine ⟨_, _, rfl, rfl, rfl, rfl, rfl, rfl, rfl, fun h ↦ ?_⟩
  have hstopped := (h (by simp)).1
  cases hstopped

end Orderly

/-! ## Only orderly runs

`stop` is closed with each database that a `Shutdown` swaps out, and can be closed once.  A reload
that comes late leaves a database with which nobody can close it. -/

/-- The databases with which `stop` has yet to be closed. -/
def unstopped (s : System IP) : Multiset DbRef :=
  owned s.dbCountry + s.shutdowns.filterMap Shutdown.unstopped

def closings (s : System IP) : Nat := s.unstopped.card + s.stop.toNat

theorem mem_owners_of_unstopped {s : System IP} {db : DbRef} (h : db ∈ s.unstopped) :
    db ∈ s.owners := by
  obtain hdb | hdb := Multiset.mem_add.mp h
  · exact Multiset.mem_add.mpr (.inl (Multiset.mem_add.mpr (.inl hdb)))
  · obtain ⟨c, hc, hswapped⟩ := (Multiset.mem_filterMap _ _).mp hdb
    refine Multiset.mem_add.mpr (.inr (Multiset.mem_map.mpr ⟨c, hc, ?_⟩))
    cases c with
    | swapped other => exact Option.some.inj hswapped
    | waiting other => cases hswapped

/-- When all is stopped, `stop` has been closed once and will not be closed again. -/
theorem closings_le_of_stopped {s : System IP} (hopen : AllOpen s) (h : Stopped s)
    (hreturned : s.returned ≠ []) : s.closings ≤ 1 := by
  have hnone : s.unstopped = 0 := by
    apply Multiset.eq_zero_of_forall_notMem
    intro db hdb
    have hsome := hopen db (mem_owners_of_unstopped hdb)
    rw [(h hreturned).2 db] at hsome
    cases hsome
  rw [closings, hnone, Multiset.card_zero, zero_add]
  exact Bool.toNat_le _

variable [DecidableEq IP]

theorem closings_taken {s t : System IP} {e : Event IP} (htaken : Taken s e t) :
    s.closings ≤ t.closings := by
  cases htaken with
  | install hphase hdb => simp [closings, unstopped, hdb, owned]
  | installLate hphase hdb => simp [closings, unstopped, hdb, owned]
  | shutdown hdb =>
      simp [closings, unstopped, hdb, owned, Shutdown.unstopped]
  | closeStop hcall hstop =>
      obtain ⟨rest, hrest⟩ := Multiset.exists_cons_of_mem hcall
      simp [closings, unstopped, hrest, hstop, Multiset.filterMap_cons, Shutdown.unstopped]
  | closeLast err result hcall =>
      obtain ⟨rest, hrest⟩ := Multiset.exists_cons_of_mem hcall
      simp [closings, unstopped, hrest, Multiset.filterMap_cons, Shutdown.unstopped]
  | _ => exact le_rfl

theorem orderly_of_step {s t : System IP} {e : Event IP} (htaken : Taken s e t) (hopen : AllOpen t)
    (hbefore : 1 ≤ s.closings) (hafter : t.closings ≤ 1) (h : Stopped t) : e.Orderly s := by
  cases htaken with
  | install hphase hdb => exact fun hnone ↦ by rw [hdb] at hnone; cases hnone
  | installLate hphase hdb =>
      simp [closings, unstopped, hdb, owned] at hbefore hafter
      omega
  | shutdownAgain hdb =>
      intro _
      apply Multiset.eq_zero_of_forall_notMem
      intro c hc
      have hmem : c.db ∈ owners { s with returned := .ok () :: s.returned } :=
        Multiset.mem_add.mpr (.inr (Multiset.mem_map_of_mem _ hc))
      have hsome := hopen c.db hmem
      rw [(h (by simp)).2 c.db] at hsome
      cases hsome
  | shutdown hdb => exact fun hnone ↦ by rw [hdb] at hnone; cases hnone
  | _ => trivial

/-- Conversely, a run in which a `Shutdown` returns and that leaves nothing behind is orderly. -/
theorem orderly_of_stopped {file : File IP} {s t : System IP} (hs : newGeoip file = .ok s)
    (hfile : file.stat ≠ .ok zeroTime) {es : List (Event IP)} (hrun : runSteps step es s = some t)
    (hreturned : t.returned ≠ []) (h : EveryState step Stopped es s) :
    EveryStep step Event.Orderly es s := by
  obtain ⟨reader, modTime, rfl, hreader⟩ := newGeoip_eq_ok hs
  obtain ⟨reader, rfl⟩ := Option.isSome_iff_exists.mp (hreader hfile)
  have hopen : EveryState step (fun s ↦ Inv s ∧ AllOpen s) es (start (some reader) modTime) :=
    everyState_of_inv allOpen_step es ⟨inv_start _ _, allOpen_start reader modTime⟩
  have hlast := closings_le_of_stopped (hopen.last hrun).2 (h.last hrun) hreturned
  have hfirst : 1 ≤ (start (some reader) modTime).closings := le_of_eq rfl
  generalize start (some reader) modTime = s at hrun h hopen hfirst
  induction es generalizing s with
  | nil => trivial
  | cons e es ih =>
      intro u hu
      rw [runSteps, hu] at hrun
      have hup := closings_taken (step_taken hu)
      have hmono (v : System IP) (e : Event IP) (w : System IP) (hv : u.closings ≤ v.closings)
          (hw : v.step e = some w) : u.closings ≤ w.closings :=
        hv.trans (closings_taken (step_taken hw))
      have hdown : u.closings ≤ t.closings := runSteps_invariant hmono es le_rfl hrun
      refine ⟨?_, ih u hrun (h.2 u hu) (hopen.2 u hu) (hfirst.trans hup)⟩
      exact orderly_of_step (step_taken hu) (hopen.2 u hu).head.2 hfirst (hdown.trans hlast)
        (h.2 u hu).head

end System

end CommonLib.GeoIP
