import CommonLib.GeoIP.Instance

/-!
# Who is to close each database

Every open reader is in exactly one place: behind the pointer, in the hands of `run`, or in those of
one call of `Shutdown`.
-/

namespace CommonLib.GeoIP

open CommonLib.Reasoning

variable {IP : Type}

def Phase.db : Phase → Option DbRef
  | .loaded db | .replaced db => some db
  | .selecting | .loading | .finished => none

namespace System

def owned (db : Option DbRef) : Multiset DbRef := db.elim 0 fun d ↦ {d}

/-- The databases that somebody is to close. -/
def owners (s : System IP) : Multiset DbRef :=
  owned s.dbCountry + owned s.phase.db + s.shutdowns.map Shutdown.db

/-- What a step does to the databases and to their owners. -/
inductive Effect (s t : System IP) : Prop
  | same (hdbs : t.dbs = s.dbs) (hfresh : t.fresh = s.fresh) (howners : t.owners = s.owners)
  | opens (reader : Reader IP) (hdbs : t.dbs = Function.update s.dbs s.fresh ⟨some reader⟩)
      (hfresh : t.fresh = s.fresh + 1) (howners : t.owners = s.fresh ::ₘ s.owners)
  | closes (db : DbRef) (hdbs : t.dbs = Function.update s.dbs db ⟨none⟩) (hfresh : t.fresh = s.fresh)
      (howners : s.owners = db ::ₘ t.owners)

theorem setClosed_eq (s : System IP) (db : DbRef) (err : Option XError.GoError) :
    s.setClosed db err = Function.update s.dbs db ⟨none⟩ := by
  rw [setClosed, Db.close_db]

/-! ## Open readers and their owners -/

/-- Each database has one owner, and every open reader has an owner. -/
structure Inv (s : System IP) : Prop where
  nodup : s.owners.Nodup
  below : ∀ db ∈ s.owners, db < s.fresh
  owned : ∀ db, (s.dbs db).reader.isSome → db ∈ s.owners

/-- No owner is left with a closed database. -/
def AllOpen (s : System IP) : Prop := ∀ db ∈ s.owners, (s.dbs db).reader.isSome

theorem inv_effect {s t : System IP} (h : Inv s) (heffect : Effect s t) : Inv t := by
  cases heffect with
  | same hdbs hfresh howners =>
      exact ⟨howners ▸ h.nodup, howners ▸ hfresh ▸ h.below, howners ▸ hdbs ▸ h.owned⟩
  | opens reader hdbs hfresh howners =>
      have hnew : s.fresh ∉ s.owners := fun hmem ↦ lt_irrefl _ (h.below _ hmem)
      refine ⟨?_, ?_, ?_⟩
      · rw [howners]
        exact Multiset.nodup_cons.mpr ⟨hnew, h.nodup⟩
      · intro db hdb
        rw [howners, Multiset.mem_cons] at hdb
        rw [hfresh]
        obtain rfl | hdb := hdb
        · exact Nat.lt_succ_self _
        · exact Nat.lt_succ_of_lt (h.below db hdb)
      · intro db hopen
        rw [howners, Multiset.mem_cons]
        by_cases hdb : db = s.fresh
        · exact .inl hdb
        · rw [hdbs, Function.update_of_ne hdb] at hopen
          exact .inr (h.owned db hopen)
  | closes db hdbs hfresh howners =>
      have hsub : ∀ other ∈ t.owners, other ∈ s.owners := fun other hother ↦
        howners ▸ Multiset.mem_cons_of_mem hother
      refine ⟨?_, ?_, ?_⟩
      · have hnodup := h.nodup
        rw [howners] at hnodup
        exact (Multiset.nodup_cons.mp hnodup).2
      · exact fun other hother ↦ hfresh ▸ h.below other (hsub other hother)
      · intro other hopen
        have hne : other ≠ db := by
          rintro rfl
          rw [hdbs, Function.update_self] at hopen
          cases hopen
        rw [hdbs, Function.update_of_ne hne] at hopen
        have hmem := h.owned other hopen
        rw [howners] at hmem
        exact (Multiset.mem_cons.mp hmem).resolve_left hne

theorem allOpen_effect {s t : System IP} (h : Inv s) (hopen : AllOpen s) (heffect : Effect s t) :
    AllOpen t := by
  cases heffect with
  | same hdbs hfresh howners =>
      intro db hdb
      rw [hdbs]
      exact hopen db (howners ▸ hdb)
  | opens reader hdbs hfresh howners =>
      intro db hdb
      rw [hdbs]
      by_cases heq : db = s.fresh
      · rw [heq, Function.update_self]
        rfl
      · rw [Function.update_of_ne heq]
        rw [howners, Multiset.mem_cons] at hdb
        exact hopen db (hdb.resolve_left heq)
  | closes db hdbs hfresh howners =>
      intro other hother
      have hnodup := h.nodup
      rw [howners] at hnodup
      have hne : other ≠ db := by
        rintro rfl
        exact (Multiset.nodup_cons.mp hnodup).1 hother
      rw [hdbs, Function.update_of_ne hne]
      exact hopen other (howners ▸ Multiset.mem_cons_of_mem hother)

theorem inv_start (reader : Option (Reader IP)) (modTime : Int) : Inv (start reader modTime) := by
  refine ⟨Multiset.nodup_singleton 0, ?_, ?_⟩
  · intro db hdb
    exact Multiset.mem_singleton.mp hdb ▸ Nat.zero_lt_one
  · intro db hopen
    by_cases hdb : db = 0
    · exact Multiset.mem_singleton.mpr hdb
    · simp only [start, Function.update_of_ne hdb] at hopen
      cases hopen

theorem allOpen_start (reader : Reader IP) (modTime : Int) :
    AllOpen (start (some reader) modTime) := by
  intro db hdb
  rw [Multiset.mem_singleton.mp hdb]
  rfl

/-! ## Runs -/

variable [DecidableEq IP]

theorem taken_effect {s t : System IP} {e : Event IP} (h : Taken s e t) : Effect s t := by
  cases h with
  | getStopped | getCountry | findClosed | rlock | answer | shutdownAgain | closeTwice =>
      exact .same rfl rfl rfl
  | tick hphase | loadNothing _ hphase | receiveStop hphase =>
      exact .same rfl rfl (by simp only [owners, hphase, Phase.db])
  | loadFile file hphase =>
      refine .opens _ rfl rfl ?_
      simp only [owners, hphase, Phase.db, owned, Option.elim, add_zero]
      rw [add_assoc, Multiset.singleton_add, Multiset.add_cons]
  | install hphase hdb =>
      refine .same rfl rfl ?_
      simp only [owners, hphase, hdb, Phase.db]
      rw [add_comm (owned _)]
  | installLate hphase hdb =>
      refine .same rfl rfl ?_
      simp only [owners, hphase, hdb, Phase.db]
      rw [add_comm (owned _)]
  | closeOld err hphase =>
      refine .closes _ (setClosed_eq ..) rfl ?_
      simp only [owners, hphase, Phase.db, owned, Option.elim, add_zero]
      rw [add_assoc, Multiset.singleton_add, Multiset.add_cons]
  | shutdown hdb =>
      refine .same rfl rfl ?_
      simp only [owners, hdb, owned, Option.elim, Multiset.map_cons, Shutdown.db]
      rw [zero_add, Multiset.singleton_add, Multiset.add_cons, Multiset.cons_add]
  | closeStop hcall =>
      refine .same rfl rfl ?_
      simp only [owners, Multiset.map_cons, Shutdown.db]
      rw [← Multiset.cons_erase hcall]
      simp [Shutdown.db]
  | closeLast err result hcall =>
      refine .closes _ (setClosed_eq ..) rfl ?_
      simp only [owners]
      rw [← Multiset.cons_erase hcall, Multiset.map_cons, Multiset.add_cons,
        Multiset.erase_cons_head]
      rfl

theorem inv_step (s : System IP) (e : Event IP) (t : System IP) (h : Inv s)
    (hstep : s.step e = some t) : Inv t :=
  inv_effect h (taken_effect (step_taken hstep))

theorem allOpen_step (s : System IP) (e : Event IP) (t : System IP) (h : Inv s ∧ AllOpen s)
    (hstep : s.step e = some t) : Inv t ∧ AllOpen t :=
  ⟨inv_step s e t h.1 hstep, allOpen_effect h.1 h.2 (taken_effect (step_taken hstep))⟩

end System

end CommonLib.GeoIP
