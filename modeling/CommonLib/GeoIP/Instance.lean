import CommonLib.Reasoning.Run
import CommonLib.XError.Error

/-!
# The country database

An instance points at a database, which a goroutine replaces when the file has changed.  `GetCountry`
loads the pointer and then takes the database's read lock; `Shutdown` and the goroutine swap the
pointer and then close, under the write lock, the database they have swapped out.
-/

namespace CommonLib.GeoIP

open CommonLib.Reasoning CommonLib.XError

/-- A `maxminddb.Reader`: the ISO code it has for an address. -/
abbrev Reader (IP : Type) := IP → Except GoError String

/-- What `GetCountry` has come to. -/
inductive Reply
  | stopped
  | closed
  | answered (result : Except GoError String)

def Reply.value : Reply → Except GoError String
  | .stopped =>
      .error (.x .internalError "maxmind database instance was stopped or never started")
  | .closed =>
      .error (.xNested .internalError "can't lookup country"
        (.x .internalError "maxmind database instance is closed"))
  | .answered (.error err) => .error (.xNested .internalError "can't lookup country" err)
  | .answered (.ok isoCode) => .ok isoCode

variable {IP : Type}

/-- A `db`, whose reader is nil once it is closed. -/
structure Db (IP : Type) where
  reader : Option (Reader IP)

namespace Db

def lookup (s : Db IP) (ip : IP) : Reply :=
  match s.reader with
  | none => .closed
  | some reader => .answered (reader ip)

/-- `Close`; `err` is what the reader's own `Close` returns. -/
def close (s : Db IP) (err : Option GoError) : Option GoError × Db IP :=
  match s.reader with
  | none => (none, s)
  | some _ => (err, ⟨none⟩)

theorem close_db (s : Db IP) (err : Option GoError) : (s.close err).2 = ⟨none⟩ := by
  obtain ⟨reader | reader⟩ := s <;> rfl

end Db

/-! ## Loading the file -/

/-- What `os.Stat` and `maxminddb.Open` return: the modification time and the reader. -/
structure File (IP : Type) where
  stat : Except GoError Int
  opened : Except GoError (Option (Reader IP))

/-- `time.Time{}`. -/
def zeroTime : Int := 0

def load (file : File IP) (prevModTime : Int) : Except GoError (Option (Reader IP)) × Int :=
  match file.stat with
  | .error err => (.error (.xNested .internalError "can't stat maxmind db" err), prevModTime)
  | .ok modTime =>
      if modTime = prevModTime then (.ok none, prevModTime)
      else match file.opened with
        | .error err => (.error (.xNested .internalError "can't open maxmind db" err), modTime)
        | .ok none => (.error (.x .internalError "can't open maxmind db"), modTime)
        | .ok (some db) => (.ok (some db), modTime)

/-! ## The instance, its goroutine and the calls in progress -/

/-- A `*db`. -/
abbrev DbRef := Nat

/-- Where `run` is. -/
inductive Phase
  | selecting
  | loading
  -- With a new reader, and the `db` that is to hold it.
  | loaded (db : DbRef)
  -- The old `db` is to be closed.
  | replaced (db : DbRef)
  -- `done` is closed.
  | finished
deriving DecidableEq

inductive Lookup (IP : Type)
  -- `GetCountry` has loaded the pointer, and goes on to take the read lock.
  | loaded (db : DbRef) (ip : IP)
  | locked (db : DbRef) (ip : IP)
deriving DecidableEq

def Lookup.db : Lookup IP → DbRef
  | .loaded db _ | .locked db _ => db

/-- The database whose read lock the call holds. -/
def Lookup.lock : Lookup IP → Option DbRef
  | .loaded _ _ => none
  | .locked db _ => some db

inductive Shutdown
  -- The pointer is nil, and `stop` is to be closed.
  | swapped (db : DbRef)
  -- For `done`.
  | waiting (db : DbRef)
deriving DecidableEq

def Shutdown.db : Shutdown → DbRef
  | .swapped db | .waiting db => db

structure System (IP : Type) where
  dbs : DbRef → Db IP
  -- The next address `newDb` returns.
  fresh : DbRef
  dbCountry : Option DbRef
  -- `stop` is closed.
  stop : Bool
  modTime : Int
  phase : Phase
  lookups : Multiset (Lookup IP)
  replies : List Reply
  shutdowns : Multiset Shutdown
  -- What the calls of `Shutdown` that are over have returned.
  returned : List (Except GoError Unit)
  panicked : Bool

inductive Event (IP : Type)
  | getCountry (ip : IP)
  | rlock (db : DbRef) (ip : IP)
  | answer (db : DbRef) (ip : IP)
  | tick
  | load (file : File IP)
  | install
  | closeOld (err : Option GoError)
  | receiveStop
  | shutdown
  | closeStop (db : DbRef)
  | closeLast (db : DbRef) (err : Option GoError)

namespace System

/-- The instance with its first database, as `run` starts. -/
def start (reader : Option (Reader IP)) (modTime : Int) : System IP where
  dbs := Function.update (fun _ ↦ ⟨none⟩) 0 ⟨reader⟩
  fresh := 1
  dbCountry := some 0
  stop := false
  modTime := modTime
  phase := .selecting
  lookups := 0
  replies := []
  shutdowns := 0
  returned := []
  panicked := false

def newGeoip (file : File IP) : Except GoError (System IP) :=
  match load file zeroTime with
  | (.error err, _) => .error err
  | (.ok reader, modTime) => .ok (start reader modTime)

theorem newGeoip_eq_ok {file : File IP} {s : System IP} (h : newGeoip file = .ok s) :
    ∃ reader modTime, s = start reader modTime ∧ (file.stat ≠ .ok zeroTime → reader.isSome) := by
  rw [newGeoip] at h
  split at h <;> cases h
  next reader modTime hload =>
    refine ⟨reader, modTime, rfl, fun hfile ↦ ?_⟩
    -- only a file with the zero time is not opened
    rw [load] at hload
    split at hload
    · cases hload
    next hstat =>
      split_ifs at hload with hzero
      · exact absurd (hzero ▸ hstat) hfile
      · split at hload <;> cases hload
        rfl

def running (s : System IP) : Bool := s.dbCountry.isSome

/-- A lookup holds the read lock, so that `Close` waits. -/
def Locked (s : System IP) (db : DbRef) : Prop := ∃ l ∈ s.lookups, l.lock = some db

instance (s : System IP) (db : DbRef) : Decidable (s.Locked db) :=
  Multiset.decidableExistsMultiset

/-- The database after its `Close`. -/
def setClosed (s : System IP) (db : DbRef) (err : Option GoError) : DbRef → Db IP :=
  Function.update s.dbs db ((s.dbs db).close err).2

variable [DecidableEq IP]

/-- One atomic step of a call or of `run`. -/
def act (s : System IP) : Event IP → Option (System IP)
  | .getCountry ip =>
      match s.dbCountry with
      | none => some { s with replies := .stopped :: s.replies }
      | some db => some { s with lookups := .loaded db ip ::ₘ s.lookups }
  | .rlock db ip =>
      if .loaded db ip ∈ s.lookups then
        match (s.dbs db).reader with
        | none => some { s with
            lookups := s.lookups.erase (.loaded db ip)
            replies := (s.dbs db).lookup ip :: s.replies }
        | some _ => some { s with
            lookups := .locked db ip ::ₘ s.lookups.erase (.loaded db ip) }
      else none
  | .answer db ip =>
      if .locked db ip ∈ s.lookups then
        some { s with
          lookups := s.lookups.erase (.locked db ip)
          replies := (s.dbs db).lookup ip :: s.replies }
      else none
  | .tick => if s.phase = .selecting then some { s with phase := .loading } else none
  | .load file =>
      if s.phase = .loading then
        match GeoIP.load file s.modTime with
        | (.ok (some reader), modTime) => some { s with
            dbs := Function.update s.dbs s.fresh ⟨some reader⟩
            fresh := s.fresh + 1
            modTime := modTime
            phase := .loaded s.fresh }
        | (_, modTime) => some { s with modTime := modTime, phase := .selecting }
      else none
  | .install =>
      match s.phase with
      | .loaded db => some { s with
          dbCountry := some db
          phase := match s.dbCountry with
            | none => .selecting
            | some old => .replaced old }
      | _ => none
  | .closeOld err =>
      match s.phase with
      | .replaced db =>
          if s.Locked db then none
          else some { s with dbs := s.setClosed db err, phase := .selecting }
      | _ => none
  -- With a tick waiting as well, `select` takes either.
  | .receiveStop =>
      if s.phase = .selecting ∧ s.stop then some { s with phase := .finished } else none
  | .shutdown =>
      match s.dbCountry with
      | none => some { s with returned := .ok () :: s.returned }
      | some db => some { s with
          dbCountry := none
          shutdowns := .swapped db ::ₘ s.shutdowns }
  | .closeStop db =>
      if .swapped db ∈ s.shutdowns then
        if s.stop then some { s with panicked := true }
        else some { s with
          stop := true
          shutdowns := .waiting db ::ₘ s.shutdowns.erase (.swapped db) }
      else none
  | .closeLast db err =>
      if .waiting db ∈ s.shutdowns ∧ s.phase = .finished ∧ ¬s.Locked db then
        some { s with
          dbs := s.setClosed db err
          shutdowns := s.shutdowns.erase (.waiting db)
          returned := (match ((s.dbs db).close err).1 with
            | none => .ok ()
            | some err => .error (.xNested .internalError "can't close maxmind db" err)) ::
              s.returned }
      else none

/-- Nothing is left to step after a panic. -/
def step (s : System IP) (e : Event IP) : Option (System IP) :=
  if s.panicked then none else s.act e

/-- What each step does, with what it has found. -/
inductive Taken (s : System IP) : Event IP → System IP → Prop
  | getStopped (ip : IP) (hdb : s.dbCountry = none) :
      Taken s (.getCountry ip) { s with replies := .stopped :: s.replies }
  | getCountry (ip : IP) {db : DbRef} (hdb : s.dbCountry = some db) :
      Taken s (.getCountry ip) { s with lookups := .loaded db ip ::ₘ s.lookups }
  | findClosed {db : DbRef} {ip : IP} (hcall : .loaded db ip ∈ s.lookups)
      (hreader : (s.dbs db).reader = none) :
      Taken s (.rlock db ip) { s with
        lookups := s.lookups.erase (.loaded db ip)
        replies := (s.dbs db).lookup ip :: s.replies }
  | rlock {db : DbRef} {ip : IP} (hcall : .loaded db ip ∈ s.lookups) :
      Taken s (.rlock db ip) { s with
        lookups := .locked db ip ::ₘ s.lookups.erase (.loaded db ip) }
  | answer {db : DbRef} {ip : IP} (hcall : .locked db ip ∈ s.lookups) :
      Taken s (.answer db ip) { s with
        lookups := s.lookups.erase (.locked db ip)
        replies := (s.dbs db).lookup ip :: s.replies }
  | tick (hphase : s.phase = .selecting) : Taken s .tick { s with phase := .loading }
  | loadFile (file : File IP) {reader : Reader IP} {modTime : Int} (hphase : s.phase = .loading)
      (hload : GeoIP.load file s.modTime = (.ok (some reader), modTime)) :
      Taken s (.load file) { s with
        dbs := Function.update s.dbs s.fresh ⟨some reader⟩
        fresh := s.fresh + 1
        modTime := modTime
        phase := .loaded s.fresh }
  | loadNothing (file : File IP) {result : Except GoError (Option (Reader IP))} {modTime : Int}
      (hphase : s.phase = .loading) (hload : GeoIP.load file s.modTime = (result, modTime))
      (hresult : ∀ reader, result ≠ .ok (some reader)) :
      Taken s (.load file) { s with modTime := modTime, phase := .selecting }
  | install {db old : DbRef} (hphase : s.phase = .loaded db) (hdb : s.dbCountry = some old) :
      Taken s .install { s with dbCountry := some db, phase := .replaced old }
  | installLate {db : DbRef} (hphase : s.phase = .loaded db) (hdb : s.dbCountry = none) :
      Taken s .install { s with dbCountry := some db, phase := .selecting }
  | closeOld {db : DbRef} (err : Option GoError) (hphase : s.phase = .replaced db)
      (hlocked : ¬s.Locked db) :
      Taken s (.closeOld err) { s with dbs := s.setClosed db err, phase := .selecting }
  | receiveStop (hphase : s.phase = .selecting) (hstop : s.stop = true) :
      Taken s .receiveStop { s with phase := .finished }
  | shutdownAgain (hdb : s.dbCountry = none) :
      Taken s .shutdown { s with returned := .ok () :: s.returned }
  | shutdown {db : DbRef} (hdb : s.dbCountry = some db) :
      Taken s .shutdown { s with dbCountry := none, shutdowns := .swapped db ::ₘ s.shutdowns }
  | closeTwice {db : DbRef} (hcall : .swapped db ∈ s.shutdowns) (hstop : s.stop = true) :
      Taken s (.closeStop db) { s with panicked := true }
  | closeStop {db : DbRef} (hcall : .swapped db ∈ s.shutdowns) (hstop : s.stop = false) :
      Taken s (.closeStop db) { s with
        stop := true
        shutdowns := .waiting db ::ₘ s.shutdowns.erase (.swapped db) }
  | closeLast {db : DbRef} (err : Option GoError) (result : Except GoError Unit)
      (hcall : .waiting db ∈ s.shutdowns) (hphase : s.phase = .finished)
      (hlocked : ¬s.Locked db) :
      Taken s (.closeLast db err) { s with
        dbs := s.setClosed db err
        shutdowns := s.shutdowns.erase (.waiting db)
        returned := result :: s.returned }

theorem step_taken {s t : System IP} {e : Event IP} (hstep : s.step e = some t) : Taken s e t := by
  rw [step, Option.ite_none_left_eq_some] at hstep
  replace hstep := hstep.2
  cases e with
  | getCountry ip =>
      rw [act] at hstep
      split at hstep <;> cases hstep
      next hdb => exact .getStopped ip hdb
      next hdb => exact .getCountry ip hdb
  | rlock db ip =>
      simp only [act, Option.ite_none_right_eq_some] at hstep
      obtain ⟨hcall, hstep⟩ := hstep
      split at hstep <;> cases hstep
      next hreader => exact .findClosed hcall hreader
      next => exact .rlock hcall
  | answer db ip =>
      simp only [act, Option.ite_none_right_eq_some] at hstep
      obtain ⟨hcall, hstep⟩ := hstep
      cases hstep
      exact .answer hcall
  | tick =>
      simp only [act, Option.ite_none_right_eq_some] at hstep
      obtain ⟨hphase, hstep⟩ := hstep
      cases hstep
      exact .tick hphase
  | load file =>
      simp only [act, Option.ite_none_right_eq_some] at hstep
      obtain ⟨hphase, hstep⟩ := hstep
      split at hstep <;> cases hstep
      next hload => exact .loadFile file hphase hload
      next hresult hload => exact .loadNothing file hphase hload hresult
  | install =>
      rw [act] at hstep
      split at hstep <;> cases hstep
      next db hphase =>
        split
        next hdb => exact .installLate hphase hdb
        next hdb => exact .install hphase hdb
  | closeOld err =>
      rw [act] at hstep
      split at hstep
      next db hphase =>
        rw [Option.ite_none_left_eq_some] at hstep
        obtain ⟨hlocked, hstep⟩ := hstep
        cases hstep
        exact .closeOld err hphase hlocked
      next => cases hstep
  | receiveStop =>
      simp only [act, Option.ite_none_right_eq_some] at hstep
      obtain ⟨⟨hphase, hstop⟩, hstep⟩ := hstep
      cases hstep
      exact .receiveStop hphase hstop
  | shutdown =>
      rw [act] at hstep
      split at hstep <;> cases hstep
      next hdb => exact .shutdownAgain hdb
      next hdb => exact .shutdown hdb
  | closeStop db =>
      simp only [act, Option.ite_none_right_eq_some] at hstep
      obtain ⟨hcall, hstep⟩ := hstep
      split_ifs at hstep with hstop <;> cases hstep
      · exact .closeTwice hcall hstop
      · exact .closeStop hcall (Bool.eq_false_of_not_eq_true hstop)
  | closeLast db err =>
      simp only [act, Option.ite_none_right_eq_some] at hstep
      obtain ⟨⟨hcall, hphase, hlocked⟩, hstep⟩ := hstep
      cases hstep
      exact .closeLast err _ hcall hphase hlocked

end System

end CommonLib.GeoIP
