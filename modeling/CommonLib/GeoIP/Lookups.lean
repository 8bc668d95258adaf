import CommonLib.GeoIP.Owners

/-!
# Lookups during a reload

A `GetCountry` between its load of the pointer and its read lock does not keep the database open.
-/

namespace CommonLib.GeoIP

open CommonLib.Reasoning

variable {IP : Type}

/-- The database that the step closes. -/
def Event.closes (s : System IP) : Event IP → Option DbRef
  | .closeOld _ => s.phase.db
  | .closeLast db _ => some db
  | _ => none

/-- `Close` does not come between a `GetCountry`'s load of the pointer and its read lock. -/
def Event.LetsThrough (s : System IP) (e : Event IP) : Prop :=
  ∀ db ∈ e.closes s, ∀ ip, .loaded db ip ∉ s.lookups

namespace System

/-- Every `GetCountry` in progress has an open reader, and none has failed for a closed one. -/
structure Answered (s : System IP) : Prop where
  readers : ∀ l ∈ s.lookups, (s.dbs l.db).reader.isSome
  replies : .closed ∉ s.replies

theorem lookup_ne_closed {db : Db IP} (h : db.reader.isSome) (ip : IP) :
    db.lookup ip ≠ .closed := by
  obtain ⟨reader, hreader⟩ := Option.isSome_iff_exists.mp h
  rw [Db.lookup, hreader]
  exact Reply.noConfusion

/-- The readers of the calls in progress are not the one that is closed. -/
theorem Answered.setClosed {s t : System IP} (h : Answered s) {db : DbRef}
    {err : Option XError.GoError} (hdbs : t.dbs = s.setClosed db err)
    (hlookups : t.lookups = s.lookups) (hreplies : t.replies = s.replies) (hlocked : ¬s.Locked db)
    (hloaded : ∀ ip, .loaded db ip ∉ s.lookups) : Answered t := by
  refine ⟨fun l hl ↦ ?_, hreplies ▸ h.replies⟩
  rw [hlookups] at hl
  have hne : l.db ≠ db := by
    rintro rfl
    cases l with
    | loaded db ip => exact hloaded ip hl
    | locked db ip => exact hlocked ⟨_, hl, rfl⟩
  rw [hdbs, setClosed_eq, Function.update_of_ne hne]
  exact h.readers l hl

theorem Answered.not_closed {s t : System IP} (h : Answered t) {db : DbRef} {ip : IP}
    {err : Option XError.GoError} (hdbs : t.dbs = s.setClosed db err) :
    .loaded db ip ∉ t.lookups := by
  intro hloaded
  have hsome := h.readers _ hloaded
  rw [hdbs, setClosed_eq, Lookup.db, Function.update_self] at hsome
  cases hsome

variable [DecidableEq IP]

theorem answered_taken {s t : System IP} {e : Event IP} (hinv : Inv s) (hopen : AllOpen s)
    (h : Answered s) (he : e.LetsThrough s) (htaken : Taken s e t) : Answered t := by
  cases htaken with
  | getStopped => exact ⟨h.readers, by simpa using h.replies⟩
  | @getCountry ip db hdb =>
      refine ⟨fun l hl ↦ ?_, h.replies⟩
      obtain rfl | hl := Multiset.mem_cons.mp hl
      · exact hopen db (by simp [owners, hdb, owned])
      · exact h.readers l hl
  | findClosed hcall hreader =>
      have hsome := h.readers _ hcall
      rw [Lookup.db, hreader] at hsome
      cases hsome
  | @rlock db ip hcall =>
      refine ⟨fun l hl ↦ ?_, h.replies⟩
      obtain rfl | hl := Multiset.mem_cons.mp hl
      · exact h.readers (.loaded db ip) hcall
      · exact h.readers l (Multiset.mem_of_mem_erase hl)
  | @answer db ip hcall =>
      refine ⟨fun l hl ↦ h.readers l (Multiset.mem_of_mem_erase hl), ?_⟩
      rw [List.mem_cons, not_or]
      exact ⟨(lookup_ne_closed (h.readers _ hcall) ip).symm, h.replies⟩
  | loadFile file hphase =>
      refine ⟨fun l hl ↦ ?_, h.replies⟩
      have hne : l.db ≠ s.fresh := (hinv.below _ (hinv.owned _ (h.readers l hl))).ne
      simp only [Function.update_of_ne hne]
      exact h.readers l hl
  | closeOld err hphase hlocked =>
      refine h.setClosed rfl rfl rfl hlocked (he _ ?_)
      rw [Event.closes, hphase]
      rfl
  | closeLast err result hcall hphase hlocked => exact h.setClosed rfl rfl rfl hlocked (he _ rfl)
  | tick | loadNothing | install | installLate | receiveStop | shutdownAgain | shutdown
  | closeTwice | closeStop => exact ⟨h.readers, h.replies⟩

/-- A call that is not let through is left with a closed reader. -/
theorem letsThrough_of_answered {s t : System IP} {e : Event IP} (h : Answered t)
    (htaken : Taken s e t) : e.LetsThrough s := by
  intro db hdb ip hloaded
  cases htaken with
  | closeOld err hphase hlocked =>
      rw [Event.closes, hphase] at hdb
      cases hdb
      exact h.not_closed rfl hloaded
  | closeLast err result hcall hphase hlocked =>
      cases hdb
      exact h.not_closed rfl hloaded
  | _ => cases hdb

/-- Throughout a run, every `GetCountry` is answered by a reader that stays open until it returns,
exactly when no `Close` comes between a call's load of the pointer and its read lock. -/
theorem answered_iff_letsThrough {file : File IP} {s : System IP} (hs : newGeoip file = .ok s)
    (hfile : file.stat ≠ .ok zeroTime) (es : List (Event IP)) :
    EveryState step Answered es s ↔ EveryStep step Event.LetsThrough es s := by
  obtain ⟨reader, modTime, rfl, hreader⟩ := newGeoip_eq_ok hs
  obtain ⟨reader, rfl⟩ := Option.isSome_iff_exists.mp (hreader hfile)
  have hanswered : ∀ s : System IP, (Inv s ∧ AllOpen s) ∧ Answered s → Answered s := fun _ h ↦ h.2
  refine everyState_iff_everyStep hanswered (fun s e t hs _ he hstep ↦ ?_)
    (fun s e t _ _ hstep ht ↦ letsThrough_of_answered ht (step_taken hstep))
    (fun _ _ ↦ trivial) ?_
  · exact ⟨allOpen_step s e t hs.1 hstep,
      answered_taken hs.1.1 hs.1.2 hs.2 he (step_taken hstep)⟩
  · exact ⟨⟨inv_start _ _, allOpen_start reader modTime⟩, by simp [start], by simp [start]⟩

/-- A file that opens. -/
def goodFile (modTime : Int) : File Unit := ⟨.ok modTime, .ok (some fun _ ↦ .ok "DE")⟩

/-- The read lock is taken after the reload has swapped the pointer, but before it closes. -/
theorem answered_lockedInTime :
    ∃ s, newGeoip (goodFile 1) = .ok s ∧
      EveryState step Answered
        [.getCountry (), .tick, .load (goodFile 2), .install, .rlock 0 (), .answer 0 (),
          .closeOld none] s := by
  have hstart : newGeoip (goodFile 1) = .ok (start (some fun _ ↦ .ok "DE") 1) := rfl
  have hfile : (goodFile 1).stat ≠ .ok zeroTime := fun h ↦ by injection h with h; cases h
  refine ⟨_, hstart, (answered_iff_letsThrough hstart hfile _).mpr ?_⟩
  have hother {s : System Unit} {e : Event Unit} (he : e.closes s = none) : e.LetsThrough s := by
    simp [Event.LetsThrough, he]
  refine .cons rfl (hother rfl) (.cons rfl (hother rfl) (.cons rfl (hother rfl)
    (.cons rfl (hother rfl) (.cons rfl (hother rfl) (.cons rfl (hother rfl) ?_)))))
  refine .cons rfl (fun db hdb ip ↦ ?_) trivial
  exact Multiset.notMem_zero _

/-- The reload closes the database that a `GetCountry` has loaded before it takes the read lock. -/
theorem reload_closes_loaded :
    ∃ s t, newGeoip (goodFile 1) = .ok s ∧
      runSteps step
        [.getCountry (), .tick, .load (goodFile 2), .install, .closeOld none, .rlock 0 ()] s =
          some t ∧
      t.replies.map Reply.value = [.error (.xNested .internalError "can't lookup country"
        (.x .internalError "maxmind database instance is closed"))] ∧
      t.running = true ∧ ¬ Answered t := by
  refine ⟨_, _, rfl, rfl, rfl, rfl, fun h ↦ h.replies ?_⟩
  exact List.mem_singleton.mpr rfl

end System

end CommonLib.GeoIP
