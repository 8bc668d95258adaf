import CommonLib.Reasoning.GoMap
import CommonLib.Reasoning.Run

/-!
# The connection manager

Connections are registered under ids drawn from a shared counter that starts over after its maximum.
The map of connections is reached through a pointer, which `CloseAll` swaps for a new map before it
closes what the old one holds; a call goes on with the map it has loaded.
-/

namespace CommonLib.ConnMgr

open CommonLib.Reasoning

def connMinimalID : Int64 := 1024
def connMaximalID : Int64 := 2147483647

inductive ConnError
  | notExist
  -- Declared, and returned by no call.
  | outOfResources
deriving DecidableEq, Repr

structure IdType where
  current : Int64
  min : Int64
  max : Int64

def newId (min max : Int64) : IdType := ⟨min, min, max⟩

/-- `shift`.  An `int` has 64 bits: after the largest one comes the smallest, which no maximum is
below. -/
def IdType.shift (i : IdType) : Int64 × IdType :=
  let next := i.current + 1
  (i.current, { i with current := if next > i.max then i.min else next })

theorem toInt_succ {x : Int64} (h : x.toInt < 2 ^ 63 - 1) : (x + 1).toInt = x.toInt + 1 := by
  have hlow := x.le_toInt
  rw [Int64.toInt_add, Int64.toInt_one]
  exact Int.bmod_eq_of_le (by omega) (by omega)

/-- A `*sync.Map`. -/
abbrev MapRef := Nat

structure Instance (C : Type) where
  pmap : MapRef
  maps : MapRef → GoMap Int64 C
  -- The next address `&sync.Map{}` returns.
  fresh : MapRef
  id : IdType

variable {C : Type}

namespace Instance

def newConnMgr : Instance C where
  pmap := 0
  maps := fun _ ↦ ∅
  fresh := 1
  id := newId connMinimalID connMaximalID

def lookup (m : Instance C) (id : Int64) : Except ConnError C :=
  match (m.maps m.pmap).lookup id with
  | none => .error .notExist
  | some c => .ok c

def setMap (m : Instance C) (map : MapRef) (conns : GoMap Int64 C) : Instance C :=
  { m with maps := Function.update m.maps map conns }

/-- `m.pmap.Swap(&sync.Map{})`, without the old pointer. -/
def swap (m : Instance C) : Instance C :=
  { m.setMap m.fresh ∅ with pmap := m.fresh, fresh := m.fresh + 1 }

end Instance

/-! ## Calls in progress -/

inductive Call (C : Type)
  -- `Register` has loaded the map, and goes on to draw an id.
  | registering (map : MapRef) (conn : C)
  | drawn (map : MapRef) (conn : C) (id : Int64)
  | unregistering (map : MapRef) (id : Int64)
  -- `CloseAll` has swapped the map out.
  | closing (map : MapRef)
  -- `Range` has these keys of the map still to come to.
  | ranging (map : MapRef) (due : List Int64)
deriving DecidableEq

def Call.map : Call C → MapRef
  | .registering map _ | .drawn map _ _ | .unregistering map _ | .closing map | .ranging map _ => map

structure Registration (C : Type) where
  map : MapRef
  id : Int64
  conn : C
deriving DecidableEq

structure System (C : Type) where
  mgr : Instance C
  calls : Multiset (Call C)
  -- The registrations that were neither unregistered nor closed by `CloseAll`.
  live : Multiset (Registration C)

inductive Event (C : Type)
  | register (conn : C)
  | draw (map : MapRef) (conn : C)
  | store (map : MapRef) (conn : C) (id : Int64)
  | unregister (id : Int64)
  | delete (map : MapRef) (id : Int64)
  | closeAll
  | range (map : MapRef)
  | visit (map : MapRef) (due : List Int64) (id : Int64)
  | rangeEnd (map : MapRef)

namespace System

def init : System C := ⟨.newConnMgr, 0, 0⟩

variable [DecidableEq C]

/-- The call goes on. -/
def advance (s : System C) (call next : Call C) : Multiset (Call C) := next ::ₘ s.calls.erase call

/-- One atomic step of a call. -/
def step (s : System C) : Event C → Option (System C)
  | .register conn => some { s with calls := .registering s.mgr.pmap conn ::ₘ s.calls }
  | .draw map conn =>
      if .registering map conn ∈ s.calls then
        let (id, counter) := s.mgr.id.shift
        some { s with
          mgr := { s.mgr with id := counter }
          calls := s.advance (.registering map conn) (.drawn map conn id) }
      else none
  | .store map conn id =>
      if .drawn map conn id ∈ s.calls then
        match (s.mgr.maps map).lookup id with
        -- The id is busy: the loop draws another one, for the same map.
        | some _ => some { s with calls := s.advance (.drawn map conn id) (.registering map conn) }
        | none => some ⟨s.mgr.setMap map ((s.mgr.maps map).insert id conn),
            s.calls.erase (.drawn map conn id), ⟨map, id, conn⟩ ::ₘ s.live⟩
      else none
  | .unregister id => some { s with calls := .unregistering s.mgr.pmap id ::ₘ s.calls }
  | .delete map id =>
      if .unregistering map id ∈ s.calls then
        match (s.mgr.maps map).lookup id with
        | none => some { s with calls := s.calls.erase (.unregistering map id) }
        | some conn => some ⟨s.mgr.setMap map ((s.mgr.maps map).erase id),
            s.calls.erase (.unregistering map id), s.live.erase ⟨map, id, conn⟩⟩
      else none
  | .closeAll => some { s with mgr := s.mgr.swap, calls := .closing s.mgr.pmap ::ₘ s.calls }
  | .range map =>
      if .closing map ∈ s.calls then
        some { s with calls := s.advance (.closing map) (.ranging map (s.mgr.maps map).keys) }
      else none
  | .visit map due id =>
      -- A key that was stored meanwhile may be visited too; one that was deleted is passed over.
      if .ranging map due ∈ s.calls then
        let calls := s.advance (.ranging map due) (.ranging map (due.erase id))
        match (s.mgr.maps map).lookup id with
        | none => some { s with calls := calls }
        | some conn => some { s with calls := calls, live := s.live.erase ⟨map, id, conn⟩ }
      else none
  | .rangeEnd map =>
      if .ranging map [] ∈ s.calls then some { s with calls := s.calls.erase (.ranging map []) }
      else none

/-- What each step does, with what it has found in the map. -/
inductive Taken (s : System C) : Event C → System C → Prop
  | register (conn : C) :
      Taken s (.register conn) { s with calls := .registering s.mgr.pmap conn ::ₘ s.calls }
  | draw {map : MapRef} {conn : C} (hcall : .registering map conn ∈ s.calls) :
      Taken s (.draw map conn) { s with
        mgr := { s.mgr with id := s.mgr.id.shift.2 }
        calls := s.advance (.registering map conn) (.drawn map conn s.mgr.id.shift.1) }
  | busy {map : MapRef} {conn : C} {id : Int64} (hcall : .drawn map conn id ∈ s.calls) :
      Taken s (.store map conn id)
        { s with calls := s.advance (.drawn map conn id) (.registering map conn) }
  | store {map : MapRef} {conn : C} {id : Int64} (hcall : .drawn map conn id ∈ s.calls)
      (hfree : (s.mgr.maps map).lookup id = none) :
      Taken s (.store map conn id) ⟨s.mgr.setMap map ((s.mgr.maps map).insert id conn),
        s.calls.erase (.drawn map conn id), ⟨map, id, conn⟩ ::ₘ s.live⟩
  | unregister (id : Int64) :
      Taken s (.unregister id) { s with calls := .unregistering s.mgr.pmap id ::ₘ s.calls }
  | gone {map : MapRef} {id : Int64} (hcall : .unregistering map id ∈ s.calls) :
      Taken s (.delete map id) { s with calls := s.calls.erase (.unregistering map id) }
  | delete {map : MapRef} {id : Int64} {conn : C} (hcall : .unregistering map id ∈ s.calls)
      (hfound : (s.mgr.maps map).lookup id = some conn) :
      Taken s (.delete map id) ⟨s.mgr.setMap map ((s.mgr.maps map).erase id),
        s.calls.erase (.unregistering map id), s.live.erase ⟨map, id, conn⟩⟩
  | closeAll :
      Taken s .closeAll { s with mgr := s.mgr.swap, calls := .closing s.mgr.pmap ::ₘ s.calls }
  | range {map : MapRef} (hcall : .closing map ∈ s.calls) :
      Taken s (.range map)
        { s with calls := s.advance (.closing map) (.ranging map (s.mgr.maps map).keys) }
  | pass {map : MapRef} {due : List Int64} {id : Int64} (hcall : .ranging map due ∈ s.calls)
      (hgone : (s.mgr.maps map).lookup id = none) :
      Taken s (.visit map due id)
        { s with calls := s.advance (.ranging map due) (.ranging map (due.erase id)) }
  | visit {map : MapRef} {due : List Int64} {id : Int64} {conn : C} (hcall : .ranging map due ∈ s.calls)
      (hfound : (s.mgr.maps map).lookup id = some conn) :
      Taken s (.visit map due id) { s with
        calls := s.advance (.ranging map due) (.ranging map (due.erase id))
        live := s.live.erase ⟨map, id, conn⟩ }
  | rangeEnd {map : MapRef} (hcall : .ranging map [] ∈ s.calls) :
      Taken s (.rangeEnd map) { s with calls := s.calls.erase (.ranging map []) }

theorem step_taken {s t : System C} {e : Event C} (hstep : s.step e = some t) : Taken s e t := by
  cases e with
  | register conn =>
      cases hstep
      exact .register conn
  | draw map conn =>
      simp only [step, Option.ite_none_right_eq_some] at hstep
      obtain ⟨hcall, hstep⟩ := hstep
      cases hstep
      exact .draw hcall
  | store map conn id =>
      simp only [step, Option.ite_none_right_eq_some] at hstep
      obtain ⟨hcall, hstep⟩ := hstep
      split at hstep
      · cases hstep
        exact .busy hcall
      next hfree =>
        cases hstep
        exact .store hcall hfree
  | unregister id =>
      cases hstep
      exact .unregister id
  | delete map id =>
      simp only [step, Option.ite_none_right_eq_some] at hstep
      obtain ⟨hcall, hstep⟩ := hstep
      split at hstep
      · cases hstep
        exact .gone hcall
      next hfound =>
        cases hstep
        exact .delete hcall hfound
  | closeAll =>
      cases hstep
      exact .closeAll
  | range map =>
      simp only [step, Option.ite_none_right_eq_some] at hstep
      obtain ⟨hcall, hstep⟩ := hstep
      cases hstep
      exact .range hcall
  | visit map due id =>
      simp only [step, Option.ite_none_right_eq_some] at hstep
      obtain ⟨hcall, hstep⟩ := hstep
      split at hstep
      next hgone =>
        cases hstep
        exact .pass hcall hgone
      next hfound =>
        cases hstep
        exact .visit hcall hfound
  | rangeEnd map =>
      simp only [step, Option.ite_none_right_eq_some] at hstep
      obtain ⟨hcall, hstep⟩ := hstep
      cases hstep
      exact .rangeEnd hcall

end System

end CommonLib.ConnMgr
