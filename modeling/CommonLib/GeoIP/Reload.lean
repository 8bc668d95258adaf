import CommonLib.GeoIP.Instance

/-!
# The version that is remembered

`run` keeps the modification time with which it compares the file at the next tick.  `load` returns
the new time also where it has not been able to open the file, and `Open` may find a newer file than
`Stat` has seen.
-/

namespace CommonLib.GeoIP

open CommonLib.Reasoning CommonLib.XError

variable {IP : Type}

/-- An event with the modification time of the file that `Open` opens in it. -/
structure Timed (IP : Type) where
  event : Event IP
  opened : Int

/-- The system, with the version of the file from which each database was loaded. -/
structure Tracked (IP : Type) where
  sys : System IP
  version : DbRef → Int

/-- What `load` finds can be opened, and is still the file of which it has the time. -/
def File.Opens (file : File IP) (prevModTime opened : Int) : Prop :=
  ∀ modTime, file.stat = .ok modTime → modTime ≠ prevModTime →
    (∃ reader, file.opened = .ok (some reader)) ∧ opened = modTime

theorem load_some {file : File IP} {prevModTime opened modTime : Int} {reader : Reader IP}
    (h : file.Opens prevModTime opened)
    (hload : load file prevModTime = (.ok (some reader), modTime)) : opened = modTime := by
  rw [load] at hload
  split at hload
  next => cases hload
  next m hstat =>
    split at hload
    next => cases hload
    next hne =>
      split at hload <;> cases hload
      exact (h _ hstat hne).2

/-- Where the file can be opened, `load` without a reader leaves the time as it is. -/
theorem load_none {file : File IP} {prevModTime opened modTime : Int}
    {result : Except GoError (Option (Reader IP))} (h : file.Opens prevModTime opened)
    (hload : load file prevModTime = (result, modTime))
    (hresult : ∀ reader, result ≠ .ok (some reader)) : modTime = prevModTime := by
  rw [load] at hload
  split at hload
  next =>
    cases hload
    rfl
  next m hstat =>
    split at hload
    next =>
      cases hload
      rfl
    next hne =>
      obtain ⟨⟨reader, hopened⟩, -⟩ := h m hstat hne
      rw [hopened] at hload
      cases hload
      exact absurd rfl (hresult reader)

namespace Tracked

/-- `NewGeoip`. -/
def newGeoip (file : File IP) (opened : Int) : Except GoError (Tracked IP) :=
  (System.newGeoip file).map fun s ↦ ⟨s, fun _ ↦ opened⟩

/-- The condition on a tick. -/
def Opens (s : Tracked IP) (e : Timed IP) : Prop :=
  ∀ file, e.event = .load file → file.Opens s.sys.modTime e.opened

/-- The installed database is of the version that is remembered. -/
def Current (s : Tracked IP) : Prop :=
  ∀ db, s.sys.dbCountry = some db → (s.sys.dbs db).reader ≠ none → s.version db = s.sys.modTime

/-- After each tick: `run` is back at its `select`. -/
def Remembers (s : Tracked IP) : Prop := s.sys.phase = .selecting → s.Current

/-- While a new database waits to be installed, it is the one with the remembered version. -/
structure Inv (s : Tracked IP) : Prop where
  loaded : ∀ db, s.sys.phase = .loaded db → s.version db = s.sys.modTime
  current : (∀ db, s.sys.phase ≠ .loaded db) → s.Current

variable {s : Tracked IP} {t : System IP}

/-- The steps that load nothing keep the version, and neither install nor open a database. -/
theorem Current.mono (h : s.Current) (hmodTime : t.modTime = s.sys.modTime)
    (hinstalled : ∀ db, t.dbCountry = some db → s.sys.dbCountry = some db)
    (hreader : ∀ db, (t.dbs db).reader ≠ none → (s.sys.dbs db).reader ≠ none) :
    Current ⟨t, s.version⟩ := by
  intro db hdb hopen
  rw [h db (hinstalled db hdb) (hreader db hopen)]
  exact hmodTime.symm

theorem Inv.mono (h : s.Inv) (hphase : t.phase = s.sys.phase) (hmodTime : t.modTime = s.sys.modTime)
    (hinstalled : ∀ db, t.dbCountry = some db → s.sys.dbCountry = some db)
    (hreader : ∀ db, (t.dbs db).reader ≠ none → (s.sys.dbs db).reader ≠ none) :
    Inv ⟨t, s.version⟩ where
  loaded db hdb := (h.loaded db (hphase ▸ hdb)).trans hmodTime.symm
  current hnone := (h.current fun db ↦ hphase ▸ hnone db).mono hmodTime hinstalled hreader

theorem reader_of_setClosed {db db' : DbRef} {err : Option GoError} {sys : System IP}
    (h : (sys.setClosed db err db').reader ≠ none) : (sys.dbs db').reader ≠ none := by
  rw [System.setClosed] at h
  by_cases hdb : db' = db
  · subst hdb
    rw [Function.update_self, Db.close_db] at h
    exact absurd rfl h
  · rwa [Function.update_of_ne hdb] at h

theorem newGeoip_inv {file : File IP} {opened : Int} (hfile : file.Opens zeroTime opened)
    (h : newGeoip file opened = .ok s) : s.Inv := by
  rw [newGeoip, System.newGeoip] at h
  split at h
  next => cases h
  next reader modTime hload =>
    cases h
    refine ⟨fun db hdb ↦ (by cases hdb), fun _ db hdb hreader ↦ ?_⟩
    cases hdb
    obtain ⟨r, rfl⟩ := Option.ne_none_iff_exists'.mp hreader
    exact load_some hfile hload

variable [DecidableEq IP]

/-- A step of the system; a new database is one of the version that was opened. -/
def step (s : Tracked IP) (e : Timed IP) : Option (Tracked IP) :=
  (s.sys.step e.event).map fun t ↦
    ⟨t, if t.fresh = s.sys.fresh then s.version
      else Function.update s.version s.sys.fresh e.opened⟩

theorem step_inv {e : Timed IP} {u : Tracked IP} (h : s.Inv) (he : s.Opens e)
    (hstep : s.step e = some u) : u.Inv := by
  obtain ⟨event, opened⟩ := e
  obtain ⟨t, hact, rfl⟩ := Option.map_eq_some_iff.mp hstep
  cases System.step_taken hact with
  | getStopped | getCountry | findClosed | rlock | answer | shutdownAgain | closeTwice | closeStop =>
      rw [if_pos rfl]
      exact h.mono rfl rfl (fun _ ↦ id) fun _ ↦ id
  | shutdown =>
      rw [if_pos rfl]
      exact h.mono rfl rfl nofun fun _ ↦ id
  | closeLast =>
      rw [if_pos rfl]
      exact h.mono rfl rfl (fun _ ↦ id) fun _ ↦ reader_of_setClosed
  | tick hphase =>
      rw [if_pos rfl]
      refine ⟨nofun, fun _ ↦ (h.current fun db ↦ ?_).mono rfl (fun _ ↦ id) fun _ ↦ id⟩
      rw [hphase]
      nofun
  | loadFile file hphase hload =>
      rw [if_neg (Nat.succ_ne_self _)]
      refine ⟨fun db hdb ↦ ?_, fun hnone ↦ absurd rfl (hnone _)⟩
      cases hdb
      exact (Function.update_self ..).trans (load_some (he file rfl) hload)
  | loadNothing file hphase hload hresult =>
      rw [if_pos rfl]
      refine ⟨nofun, fun _ ↦ (h.current fun db ↦ ?_).mono ?_ (fun _ ↦ id) fun _ ↦ id⟩
      · rw [hphase]
        nofun
      · exact load_none (he file rfl) hload hresult
  | install hphase | installLate hphase =>
      rw [if_pos rfl]
      refine ⟨nofun, fun _ db hdb _ ↦ ?_⟩
      cases hdb
      exact h.loaded _ hphase
  | closeOld err hphase =>
      rw [if_pos rfl]
      refine ⟨nofun, fun _ ↦ (h.current fun db ↦ ?_).mono rfl (fun _ ↦ id)
        fun _ ↦ reader_of_setClosed⟩
      rw [hphase]
      nofun
  | receiveStop hphase =>
      rw [if_pos rfl]
      refine ⟨nofun, fun _ ↦ (h.current fun db ↦ ?_).mono rfl (fun _ ↦ id) fun _ ↦ id⟩
      rw [hphase]
      nofun

/-- In a run in which every changed file can be opened, as `Stat` has seen it, the remembered time is
that of the installed version after each tick. -/
theorem remembers_of_opens (file : File IP) (opened : Int) (hfile : file.Opens zeroTime opened)
    (hnew : newGeoip file opened = .ok s) (es : List (Timed IP))
    (h : EveryStep step Opens es s) : EveryState step Remembers es s := by
  have hinv := newGeoip_inv hfile hnew
  refine (h.everyState (fun _ _ _ hs he hstep ↦ step_inv hs he hstep) hinv).imp fun u hu ↦ ?_
  intro hphase
  refine hu.current fun db hdb ↦ ?_
  rw [hphase] at hdb
  cases hdb

/-- A changed file that cannot be opened breaks this at once, whatever is installed. -/
theorem not_remembers_of_failed {u : Tracked IP} {file : File IP} {opened modTime : Int}
    {err : GoError} {db : DbRef} (hstat : file.stat = .ok modTime)
    (hchanged : modTime ≠ s.sys.modTime) (hfailed : file.opened = .error err)
    (hdb : s.sys.dbCountry = some db) (hreader : (s.sys.dbs db).reader ≠ none)
    (hversion : s.version db = s.sys.modTime) (hstep : s.step ⟨.load file, opened⟩ = some u) :
    ¬ u.Remembers := by
  have hload : GeoIP.load file s.sys.modTime =
      (.error (.xNested .internalError "can't open maxmind db" err), modTime) := by
    rw [GeoIP.load, hstat]
    dsimp only
    rw [if_neg hchanged, hfailed]
  obtain ⟨t, hact, rfl⟩ := Option.map_eq_some_iff.mp hstep
  cases System.step_taken hact with
  | loadFile _ _ hload' => cases hload.symm.trans hload'
  | loadNothing _ _ hload' =>
      cases hload.symm.trans hload'
      intro h
      have hcurrent := h rfl db hdb hreader
      rw [if_pos rfl] at hcurrent
      exact hchanged (hcurrent.symm.trans hversion)

/-- A file with a database that has one country for every address. -/
def whole (modTime : Int) (isoCode : String) : File Unit :=
  ⟨.ok modTime, .ok (some fun _ ↦ .ok isoCode)⟩

theorem whole_opens (modTime : Int) (isoCode : String) (prevModTime : Int) :
    (whole modTime isoCode).Opens prevModTime modTime := by
  rintro _ ⟨⟩ -
  exact ⟨⟨_, rfl⟩, rfl⟩

/-- The file while it is copied: it has a new time, and cannot be opened yet. -/
def halfCopied (modTime : Int) : File Unit := ⟨.ok modTime, .error (.new "invalid MaxMind DB file")⟩

def started : Tracked Unit := ⟨.start (some fun _ ↦ .ok "DE") 1, fun _ ↦ 1⟩

/-- A new version is loaded. -/
theorem remembers_reloaded :
    EveryState step Remembers
      [⟨.tick, 0⟩, ⟨.load (whole 2 "FR"), 2⟩, ⟨.install, 0⟩, ⟨.closeOld none, 0⟩] started := by
  refine remembers_of_opens (whole 1 "DE") 1 (whole_opens 1 "DE" _) rfl _ ?_
  refine .cons rfl nofun (.cons rfl ?_ (.cons rfl nofun (.cons rfl nofun trivial)))
  rintro _ ⟨⟩
  exact whole_opens 2 "FR" _

/-- A version that cannot be opened is remembered all the same, and not tried again when it can. -/
theorem failed_version_forgotten :
    ∃ s, runSteps step [⟨.tick, 0⟩, ⟨.load (halfCopied 2), 2⟩, ⟨.tick, 0⟩, ⟨.load (whole 2 "FR"), 2⟩]
        started = some s ∧
      s.sys.phase = .selecting ∧ s.sys.dbCountry = some 0 ∧ s.version 0 = 1 ∧ s.sys.modTime = 2 ∧
      ¬ s.Remembers := by
  refine ⟨_, rfl, rfl, rfl, rfl, rfl, fun h ↦ ?_⟩
  have hcurrent := h rfl 0 rfl (Option.some_ne_none _)
  exact absurd hcurrent (by decide)

end Tracked

end CommonLib.GeoIP
