import CommonLib.LinkedList.Elements
import CommonLib.Reasoning.Run
import CommonLib.XDNS.Client.Response

/-!
# The last-active resolver

`lastactive.go` over the linked list it uses.  `With`, `Add` and `Unset` hold the write lock from
their start to their end.  `Lookup` walks the list under the read lock; unless the element that has
answered is the first, it drops that lock, takes the write lock and moves the element to the front.
-/

namespace CommonLib.XDNS.Client.LastActive

open Reasoning LinkedList

structure Entity (T R : Type) where
  tag : T
  resolver : R
deriving Inhabited

inductive Error
  | alreadyExists
  | notExists
deriving DecidableEq, Repr

/-- `r.entities`.  A `*lastActiveEntity` is reached from its element only and is kept in it. -/
abbrev Entities (T R : Type) := LinkedList (Entity T R)

/-- What the resolver of the `i`-th entity that a lookup asks returns. -/
abbrev Answers (R E : Type) := Nat → R → Except E (Option Response)

variable {T R E : Type}

def add [DecidableEq T] (s : Entities T R) (tag : T) (resolver : R) (replace : Bool) :
    Except Crash (Option Error × Entities T R) := do
  match ← s.search fun entity ↦ entity.tag = tag with
  | some e =>
      if replace then return (none, s.setValue e { (s.heap e).value with resolver })
      else return (some .alreadyExists, s)
  | none =>
      let (_, s) ← s.pushBack ⟨tag, resolver⟩
      return (none, s)

def unset [DecidableEq T] (s : Entities T R) (tag : T) :
    Except Crash (Option Error × Entities T R) := do
  match ← s.search fun entity ↦ entity.tag = tag with
  | some e =>
      let (_, s) ← s.Remove e
      return (none, s)
  | none => return (some .notExists, s)

/-- `err == nil && result.Successful()`, with the result. -/
def serves : Except E (Option Response) → Option Response
  | .ok result => if Response.successful result then result else none
  | .error _ => none

/-- The loop of `Lookup`: the element whose resolver has served the request, with the response, and
the elements asked, in their order. -/
def lookupLoop (s : Entities T R) (answers : Answers R E) :
    Nat → Nat → Option Ref → Except Crash (Option (Ref × Response) × List Ref)
  | _, _, none => .ok (none, [])
  | 0, _, some _ => .error .outOfFuel
  | fuel + 1, i, some e =>
      match serves (answers i (s.heap e).value.resolver) with
      | some response => .ok (some (e, response), [e])
      | none => do
          let (found, asked) ← lookupLoop s answers fuel (i + 1) (s.next e)
          return (found, e :: asked)

/-! ## Calls in parallel -/

/-- A call of `Lookup`. -/
abbrev CallId := Nat

structure System (T R : Type) where
  entities : Entities T R
  -- The calls of `Lookup` between their two locks: what they have found and are to move.
  moving : CallId → Option (Ref × Response)

/-- What is done under one lock. -/
inductive Step (T R E : Type)
  | withResolver (tag : T) (resolver : R)
  | add (tag : T) (resolver : R)
  | unset (tag : T)
  | lookup (id : CallId) (answers : Answers R E)
  | moveToFront (id : CallId)

inductive Reply
  | returned (err : Option Error)
  -- `Lookup` returns, or goes on to move the element; without one it returns `ErrDNSNoResponse`.
  | asked (found : Option (Ref × Response)) (asked : List Ref)
  | moved (response : Response)
  -- It is not this step's turn.
  | skipped

namespace System

def new [Inhabited T] [Inhabited R] : System T R := ⟨LinkedList.new, fun _ ↦ none⟩

def elements (s : System T R) : List Ref := s.entities.elements

def tagOf (s : System T R) (e : Ref) : T := (s.entities.heap e).value.tag

def tags (s : System T R) : List T := s.elements.map s.tagOf

end System

variable [DecidableEq T]

def exec : Step T R E → System T R → Except Crash (Reply × System T R)
  | .withResolver tag resolver, s => do
      -- `With` drops the error
      let (_, entities) ← LastActive.add s.entities tag resolver true
      return (.returned none, { s with entities })
  | .add tag resolver, s => do
      let (err, entities) ← LastActive.add s.entities tag resolver false
      return (.returned err, { s with entities })
  | .unset tag, s => do
      let (err, entities) ← LastActive.unset s.entities tag
      return (.returned err, { s with entities })
  | .lookup id answers, s =>
      match s.moving id with
      | some _ => .ok (.skipped, s)
      | none => do
          let (found, asked) ←
            lookupLoop s.entities answers s.entities.len.toNat 0 s.entities.front
          match found with
          | some (e, response) =>
              if s.entities.front = some e then return (.asked found asked, s)
              else return (.asked found asked,
                { s with moving := Function.update s.moving id (some (e, response)) })
          | none => return (.asked none asked, s)
  | .moveToFront id, s =>
      match s.moving id with
      | none => .ok (.skipped, s)
      | some (e, response) => do
          let entities ← s.entities.moveToFront e
          return (.moved response, ⟨entities, Function.update s.moving id none⟩)

end CommonLib.XDNS.Client.LastActive
