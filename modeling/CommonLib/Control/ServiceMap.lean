import CommonLib.Reasoning.GoMap
import CommonLib.Reasoning.Run
import CommonLib.XError.Error

/-!
# The service map

Services are registered by name and shut down in reverse order.  A service that has been shut down
leaves a nil entry under its name until all of them are.
-/

namespace CommonLib.Control

open CommonLib.Reasoning CommonLib.XError

/-- `N` are the names and `S` the services; a nil `ServiceController` is `none`. -/
structure ServiceMap (N S : Type) where
  services : GoMap N (Option S)
  order : List N

/-- What a service's `Shutdown` returns, and its `Running` after that. -/
structure Answer where
  err : Option GoError
  running : Bool
deriving DecidableEq

def Answer.Succeeds (a : Answer) : Prop := a.err = none ∧ a.running = false

instance (a : Answer) : Decidable a.Succeeds := inferInstanceAs (Decidable (_ ∧ _))

variable {N S : Type} [DecidableEq N]

namespace ServiceMap

def newServiceMap : ServiceMap N S := ⟨∅, []⟩

def registerService (m : ServiceMap N S) (name : N) (service : Option S) :
    Except Crash (ServiceMap N S) :=
  if (m.services.lookup name).isSome then .error (.fatal "Service is already registered")
  else if service.isNone then .error (.fatal "Service is nil")
  else .ok ⟨m.services.insert name service, m.order ++ [name]⟩

/-- `Replace`; `answer` is what the old service's `Shutdown` returns. -/
def replace (m : ServiceMap N S) (name : N) (s : Option S) (answer : Option GoError) :
    Except Crash (Except GoError Unit × ServiceMap N S) :=
  match m.services.lookup name with
  | none => .ok (.error (.x .internalError "replace: service is not registered"), m)
  | some none => .error (.panic "invalid memory address or nil pointer dereference")
  | some (some _) =>
      match answer with
      | some err => .ok (.error (.xNested .internalError "replace: failed to shutdown" err), m)
      | none => .ok (.ok (), { m with services := m.services.insert name s })

/-- The loop of `Shutdown` over the names in reverse order: its error, the services it leaves and
those whose `Shutdown` it has called. -/
def shutdownLoop (answers : N → Answer) :
    List N → GoMap N (Option S) → Except GoError Unit × GoMap N (Option S) × List (N × S)
  | [], services => (.ok (), services, [])
  | name :: rest, services =>
      match (services.lookup name).join with
      | none => (.error (.x .internalError "service is nil"), services, [])
      | some service =>
          match (answers name).err with
          | some err =>
              (.error (.xNested .internalError "service is failed to shutdown" err), services,
                [(name, service)])
          | none =>
              if (answers name).running then
                (.error (.x .internalError "service is still running"), services, [(name, service)])
              else
                let (reply, services, calls) :=
                  shutdownLoop answers rest (services.insert name none)
                (reply, services, (name, service) :: calls)

/-- `Shutdown`, with the services whose `Shutdown` it calls. -/
def shutdown (m : ServiceMap N S) (answers : N → Answer) :
    Except GoError Unit × ServiceMap N S × List (N × S) :=
  match shutdownLoop answers m.order.reverse m.services with
  | (.error err, services, calls) => (.error err, { m with services := services }, calls)
  -- Both are emptied, so that the check at the end finds nothing.
  | (.ok (), _, calls) => (.ok (), ⟨∅, []⟩, calls)

end ServiceMap

/-! ## Calls one after another -/

inductive Op (N S : Type)
  | register (name : N) (service : Option S)
  | replace (name : N) (s : Option S) (answer : Option GoError)
  | shutdown (answers : N → Answer)

/-- The next map, if the call returns. -/
def step (m : ServiceMap N S) : Op N S → Option (ServiceMap N S)
  | .register name service => (m.registerService name service).toOption
  | .replace name s answer => (m.replace name s answer).toOption.map (·.2)
  | .shutdown answers => some (m.shutdown answers).2.1

end CommonLib.Control
