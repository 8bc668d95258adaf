import CommonLib.Reasoning.Run

/-!
# The connection blocker

`Blocker` keeps one semaphore per id, made by the first caller that needs it and dropped by the
last one that leaves.  `take` and `put` run under the blocker's lock; between them a caller waits
on the semaphore, holds it, or has just failed to get or has just returned it.
-/

namespace CommonLib.XLimits

open CommonLib.Reasoning

/-- A `*consumer`: the address of an object on the heap. -/
abbrev Ref := Nat

structure Consumer where
  -- `limit`: the size of the weighted semaphore and how much of it is granted.
  size : Int
  cur : Int
  usage : Int
deriving DecidableEq, Repr

structure Blocker (Id : Type) where
  maxConn : Int
  consumers : Id → Option Ref
  heap : Ref → Consumer
  -- The next address `&consumer{}` returns.
  fresh : Ref

inductive Phase
  | waiting | failing | holding | releasing
deriving DecidableEq, Repr

/-- A call of `Acquire` or `Release` that has taken its consumer and not yet put it back. -/
structure Call (Id : Type) where
  id : Id
  ref : Ref
  phase : Phase
deriving DecidableEq, Repr

variable {Id : Type} [DecidableEq Id]

namespace Blocker

def new (maxConn : Int) : Blocker Id where
  maxConn := maxConn
  consumers := fun _ ↦ none
  heap := fun _ ↦ ⟨0, 0, 0⟩
  fresh := 0

def take (s : Blocker Id) (id : Id) : Ref × Blocker Id :=
  match s.consumers id with
  | some c =>
      let used := { s.heap c with usage := (s.heap c).usage + 1 }
      (c, { s with heap := Function.update s.heap c used })
  | none =>
      (s.fresh, { s with
        consumers := Function.update s.consumers id (some s.fresh)
        heap := Function.update s.heap s.fresh ⟨s.maxConn, 0, 1⟩
        fresh := s.fresh + 1 })

/-- `put`, and whether it found the consumer; if not it only logs an error. -/
def put (s : Blocker Id) (id : Id) : Bool × Blocker Id :=
  match s.consumers id with
  | none => (false, s)
  | some c =>
      let usage := (s.heap c).usage - 1
      let heap := Function.update s.heap c { s.heap c with usage := usage }
      if usage = 0 then
        (true, { s with heap := heap, consumers := Function.update s.consumers id none })
      else (true, { s with heap := heap })

/-- `semaphore.Weighted` never has more than its size granted. -/
def canGrant (s : Blocker Id) (c : Ref) : Bool := decide ((s.heap c).cur + 1 ≤ (s.heap c).size)

def addGranted (s : Blocker Id) (c : Ref) (n : Int) : Blocker Id :=
  { s with heap := Function.update s.heap c { s.heap c with cur := (s.heap c).cur + n } }

end Blocker

/-! ## The blocker and its callers -/

structure System (Id : Type) where
  blocker : Blocker Id
  calls : Multiset (Call Id)

inductive Event (Id : Type)
  | take (id : Id)
  | grant (call : Call Id)
  | fail (call : Call Id)
  | release (call : Call Id)
  | put (call : Call Id)

def System.init (maxConn : Int) : System Id := ⟨.new maxConn, 0⟩

def setPhase (calls : Multiset (Call Id)) (call : Call Id) (phase : Phase) :
    Multiset (Call Id) :=
  { call with phase := phase } ::ₘ calls.erase call

def step (s : System Id) : Event Id → Option (System Id)
  | .take id =>
      let (c, b) := s.blocker.take id
      some ⟨b, ⟨id, c, .waiting⟩ ::ₘ s.calls⟩
  | .grant call =>
      if call ∈ s.calls ∧ call.phase = .waiting ∧ s.blocker.canGrant call.ref then
        some ⟨s.blocker.addGranted call.ref 1, setPhase s.calls call .holding⟩
      else none
  | .fail call =>
      if call ∈ s.calls ∧ call.phase = .waiting then
        some ⟨s.blocker, setPhase s.calls call .failing⟩
      else none
  | .release call =>
      if call ∈ s.calls ∧ call.phase = .holding then
        some ⟨s.blocker.addGranted call.ref (-1), setPhase s.calls call .releasing⟩
      else none
  | .put call =>
      if call ∈ s.calls ∧ (call.phase = .failing ∨ call.phase = .releasing) then
        some ⟨(s.blocker.put call.id).2, s.calls.erase call⟩
      else none

/-- The calls for `id` that have taken its consumer. -/
def outstanding (calls : Multiset (Call Id)) (id : Id) : Nat := calls.countP (·.id = id)

/-- The calls for `id` between a successful `Acquire` and their `Release`. -/
def holders (calls : Multiset (Call Id)) (id : Id) : Nat :=
  calls.countP fun c ↦ c.id = id ∧ c.phase = .holding

end CommonLib.XLimits
