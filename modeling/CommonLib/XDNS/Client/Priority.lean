import CommonLib.Reasoning.GoSlice
import CommonLib.Reasoning.Run

/-!
# The priority resolver

A list of resolvers that `Lookup` asks in order, kept in one slice of pointers.  `add` ranges over
the slice it had on entry and rebuilds `resolvers` while it does.
-/

namespace CommonLib.XDNS.Client

open CommonLib.Reasoning

structure PriorityEntity (R : Type) where
  priority : Int
  resolver : R
  failureTimeout : Int
  failedAt : Int

/-- A `*priorityEntity`. -/
abbrev EntityRef := Nat

structure PriorityResolver (R : Type) where
  entities : EntityRef → PriorityEntity R
  freshEntity : EntityRef
  arrays : Arrays EntityRef
  resolvers : Slice

inductive ClientError
  | notExists
  | dnsNoResponse
deriving DecidableEq, Repr

variable {R : Type}

namespace PriorityResolver

def new [Inhabited R] : PriorityResolver R where
  entities := fun _ ↦ ⟨0, default, 0, 0⟩
  freshEntity := 0
  arrays := ⟨fun _ _ ↦ 0, 1⟩
  resolvers := ⟨0, 0, 0, 0⟩

def setResolver (r : PriorityResolver R) (e : EntityRef) (resolver : R) : PriorityResolver R :=
  { r with entities := Function.update r.entities e { r.entities e with resolver := resolver } }

def refs (r : PriorityResolver R) : List EntityRef := r.resolvers.toList r.arrays

def priorities (r : PriorityResolver R) : List Int := r.refs.map fun e ↦ (r.entities e).priority

def get (r : PriorityResolver R) (priority : Int) : Except ClientError R :=
  match r.refs.find? fun e ↦ (r.entities e).priority = priority with
  | some e => .ok (r.entities e).resolver
  | none => .error .notExists

/-- `append(append(r.resolvers[:idx], entity), r.resolvers[idx:]...)`. -/
def insertAt (g : Growth) (r : PriorityResolver R) (idx : Nat) (entity : EntityRef) :
    PriorityResolver R :=
  let inner := Slice.append g r.arrays (r.resolvers.upTo idx) [entity]
  -- The outer call copies what the inner one has left in the array.
  let outer := Slice.append g inner.1 inner.2 ((r.resolvers.after idx).toList inner.1)
  { r with arrays := outer.1, resolvers := outer.2 }

/-- The loop of `add` over the indices of `ranged`, the slice on entry; the flag says that it has
returned.  The loop variable hides the new entity, so the insertion is of the one just read. -/
def addLoop (g : Growth) (ranged : Slice) (priority : Int) (resolver : R) (replace : Bool) :
    List Nat → PriorityResolver R → PriorityResolver R × Bool
  | [], r => (r, false)
  | idx :: rest, r =>
      let entity := ranged.get r.arrays idx
      if (r.entities entity).priority = priority ∧ replace then
        (r.setResolver (r.resolvers.get r.arrays idx) resolver, true)
      else if (r.entities entity).priority > priority then
        addLoop g ranged priority resolver replace rest (r.insertAt g idx entity)
      else addLoop g ranged priority resolver replace rest r

def appendEntity (g : Growth) (r : PriorityResolver R) (entity : EntityRef) : PriorityResolver R :=
  let appended := Slice.append g r.arrays r.resolvers [entity]
  { r with arrays := appended.1, resolvers := appended.2 }

def allocEntity (r : PriorityResolver R) (entity : PriorityEntity R) : PriorityResolver R :=
  { r with
    entities := Function.update r.entities r.freshEntity entity
    freshEntity := r.freshEntity + 1 }

def add (g : Growth) (r : PriorityResolver R) (priority : Int) (resolver : R)
    (priorityFailureTimeout : Int) (replace : Bool) : PriorityResolver R :=
  let entity := r.freshEntity
  let r := r.allocEntity ⟨priority, resolver, priorityFailureTimeout, 0⟩
  match addLoop g r.resolvers priority resolver replace (List.range r.resolvers.len) r with
  | (r, true) => r
  | (r, false) => r.appendEntity g entity

/-- `append(r.resolvers[:idx], r.resolvers[idx+1:]...)`. -/
def removeAt (g : Growth) (r : PriorityResolver R) (idx : Nat) : PriorityResolver R :=
  let removed := Slice.append g r.arrays (r.resolvers.upTo idx)
    ((r.resolvers.after (idx + 1)).toList r.arrays)
  { r with arrays := removed.1, resolvers := removed.2 }

def unset (g : Growth) (r : PriorityResolver R) (priority : Int) :
    Except ClientError Unit × PriorityResolver R :=
  let found := (List.range r.resolvers.len).find? fun idx ↦
    (r.entities (r.resolvers.get r.arrays idx)).priority = priority
  match found with
  | some idx => (.ok (), r.removeAt g idx)
  | none => (.error .notExists, r)

/-! ## Lookup -/

inductive Outcome (Resp : Type)
  | response (result : Resp)
  -- `ErrDNSEmptyResponse` or `ErrDNSNotExists`.
  | noData
  | failure

/-- What `Lookup` meets at one resolver: the clock, the resolver's answer, and the clock after. -/
structure Probe (Resp : Type) where
  now : Int
  outcome : Outcome Resp
  done : Int

/-- `time.Since`, which saturates at the largest duration. -/
def timeSince (now t : Int) : Int := min (now - t) (2 ^ 63 - 1)

def setFailedAt (r : PriorityResolver R) (e : EntityRef) (t : Int) : PriorityResolver R :=
  { r with entities := Function.update r.entities e { r.entities e with failedAt := t } }

/-- The loop of `Lookup`; the last component lists the entities whose resolver was asked. -/
def lookupLoop {Resp : Type} (probe : Nat → Probe Resp) :
    List EntityRef → Nat → PriorityResolver R →
      Except ClientError Resp × PriorityResolver R × List EntityRef
  | [], _, r => (.error .dnsNoResponse, r, [])
  | e :: rest, i, r =>
      if timeSince (probe i).now (r.entities e).failedAt > (r.entities e).failureTimeout then
        match (probe i).outcome with
        | .response result => (.ok result, r, [e])
        | .noData =>
            let (result, r, asked) := lookupLoop probe rest (i + 1) r
            (result, r, e :: asked)
        | .failure =>
            let (result, r, asked) := lookupLoop probe rest (i + 1) (r.setFailedAt e (probe i).done)
            (result, r, e :: asked)
      else lookupLoop probe rest (i + 1) r

def lookup {Resp : Type} (r : PriorityResolver R) (probe : Nat → Probe Resp) :
    Except ClientError Resp × PriorityResolver R × List EntityRef :=
  lookupLoop probe r.refs 0 r

end PriorityResolver

/-! ## Calls -/

inductive Call (R : Type)
  | withResolver (priority : Int) (resolver : R) (failureTimeout : Int)
  | add (priority : Int) (resolver : R) (failureTimeout : Int)
  | unset (priority : Int)

namespace PriorityResolver

def exec (g : Growth) (r : PriorityResolver R) : Call R → PriorityResolver R
  | .withResolver priority resolver timeout => r.add g priority resolver timeout true
  | .add priority resolver timeout => r.add g priority resolver timeout false
  | .unset priority => (r.unset g priority).2

end PriorityResolver

end CommonLib.XDNS.Client
