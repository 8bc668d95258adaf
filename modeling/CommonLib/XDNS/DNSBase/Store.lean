import CommonLib.Reasoning.Crash
import CommonLib.Reasoning.GoString

/-!
# The rule base of the DNS filter

Rules are kept in one SQL table as a tree of labels: a row names a label, the row of the label after
it as its parent, and the categories of the rule that ends there.  The writer walks a name from its
last label to its first and adds the rows that are missing; the reader walks it the same way.
-/

namespace CommonLib.XDNS.DNSBase

open CommonLib.Reasoning

def dot : UInt8 := 46
def comma : UInt8 := 44
def star : GoString := [42]

abbrev Categories := List GoString

/-- `NULL` for a row that no rule ends at. -/
def Categories.value (c : Categories) : Option GoString :=
  if c.length = 0 then none else some (GoString.join c comma)

/-- The categories read from a column; `none` is the nil slice. -/
def Categories.scan : Option GoString → Option Categories
  | none => none
  | some s => if s.length > 0 then some (GoString.split s comma) else none

structure Row where
  id : Nat
  parentId : Nat
  name : GoString
  category : Option GoString
deriving DecidableEq, Repr

abbrev Table := List Row

structure Domain where
  id : Nat
  parentId : Nat
  name : GoString
  categories : Option Categories
deriving DecidableEq, Repr

def Domain.isChild (d : Domain) : Bool := d.categories.isSome

/-- The row at `(name, parentID)`: there is at most one, by the unique index. -/
def Table.row (t : Table) (name : GoString) (parentID : Nat) : Option Row :=
  t.find? fun r ↦ r.name = name ∧ r.parentId = parentID

def lookupRecord (t : Table) (name : GoString) (parentID : Nat) : Option Domain :=
  (t.row name parentID).map fun r ↦ ⟨r.id, parentID, name, Categories.scan r.category⟩

/-- The largest id in the table; a new row gets the next one. -/
def Table.maxId (t : Table) : Nat := (t.map Row.id).foldr max 0

def insertRecord (t : Table) (name : GoString) (parentID : Nat) (cats : Categories) :
    Option (Table × Nat) :=
  if (t.row name parentID).isSome then none
  else some (t ++ [⟨t.maxId + 1, parentID, name, cats.value⟩], t.maxId + 1)

inductive WriteError
  | tooFewParts
  | wildcardNotFirst
  | emptyCategories
  | begin
  | lookup
  | insert
  | alreadyExists (domain : GoString)
  | update
  | rowsAffected (got : Nat)
deriving DecidableEq, Repr

def setCategory (id : Nat) (category : Option GoString) (r : Row) : Row :=
  if r.id = id then { r with category := category } else r

def updateRecordCategories (t : Table) (id : Nat) (newCats : Categories) (failed : Bool) :
    Except Crash (Except WriteError Table) :=
  if id = 0 then .error (.panic "empty id")
  else if newCats.length = 0 then .error (.panic "no cats")
  else if failed then .ok (.error .update)
  else
    let ra := t.countP fun r ↦ r.id = id
    if ra ≠ 1 then .ok (.error (.rowsAffected ra))
    else .ok (.ok (t.map (setCategory id newCats.value)))

def normalizeDomain (s : GoString) : Except Crash GoString :=
  match s.getLast? with
  | none => .error .indexOutOfRange
  | some b => .ok (if b = dot then s.dropLast else s)

def validateDomain (parts : List GoString) : Option WriteError :=
  if parts.length < 2 then some .tooFewParts
  else if star ∈ parts.drop 1 then some .wildcardNotFirst
  else none

/-- The loop of `Write` over the labels from the last to the first.  `fails k` says that the `k`-th
SQL statement of the call fails; the counter counts them. -/
def writeLoop (fails : Nat → Bool) (domain : GoString) (cats : Categories) :
    List GoString → Nat → Table → Nat → Except WriteError (Table × Nat × Nat)
  | [], k, t, parentID => .ok (t, parentID, k)
  | name :: rest, k, t, parentID =>
      if fails k then .error .lookup
      else match lookupRecord t name parentID with
        | none =>
            if fails (k + 1) then .error .insert
            -- Categories go to the first label only, not to the intermediate parents.
            else match insertRecord t name parentID (if rest = [] then cats else []) with
              | none => .error .insert
              | some (t, pid) => writeLoop fails domain cats rest (k + 2) t pid
        | some dom =>
            if rest = [] ∧ dom.isChild then .error (.alreadyExists domain)
            else writeLoop fails domain cats rest (k + 1) t dom.id

/-- `Write`: the error it returns, if any, and the committed table. -/
def write (fails : Nat → Bool) (t : Table) (domain : GoString) (cats : Categories) :
    Except Crash (Option WriteError × Table) := do
  let domain ← normalizeDomain domain
  let parts := domain.split dot
  match validateDomain parts with
  | some err => return (some err, t)
  | none =>
      if cats.length = 0 then return (some .emptyCategories, t)
      else if fails 0 then return (some .begin, t)
      else match writeLoop fails domain cats parts.reverse 1 t 0 with
        | .error err => return (some err, t)
        | .ok (written, parentID, k) =>
            match ← updateRecordCategories written parentID cats (fails k) with
            | .error err => return (some err, t)
            -- The deferred commit's own error is dropped.
            | .ok updated => return (none, if fails (k + 1) then t else updated)

inductive DeleteError
  | exec
deriving DecidableEq, Repr

/-- `Delete`: one row, if the id is there; the rows below it stay. -/
def delete (failed : Bool) (t : Table) (id : Int) : Option DeleteError × Table :=
  if failed then (some .exec, t) else (none, t.filter fun r ↦ (r.id : Int) ≠ id)

inductive LookupError
  | invalidName
  | noRows
  | noMatches
deriving DecidableEq, Repr

/-- The loop of `Lookup` over the labels from the second last to the first.  The result is the
domain found and its chain of parents. -/
def lookupLoop (t : Table) : List GoString → Domain → List Domain → Option Domain →
    Except LookupError (Domain × List Domain)
  | [], parent, parents, _ => if parent.isChild then .ok (parent, parents) else .error .noMatches
  | name :: rest, parent, parents, wildcard =>
      let wildcard := (lookupRecord t star parent.id).or wildcard
      match lookupRecord t name parent.id with
      | some sub => lookupLoop t rest sub (parent :: parents) wildcard
      | none =>
          match wildcard with
          | some wc => .ok (wc, parent :: parents)
          | none => .error .noRows

def lookup (t : Table) (name : GoString) :
    Except Crash (Except LookupError (Domain × List Domain)) := do
  if name.length < 2 then return .error .invalidName
  let name ← normalizeDomain name
  match (name.split dot).reverse with
  | [] => return .error .invalidName
  | [_] => return .error .invalidName
  | parentName :: rest =>
      match lookupRecord t parentName 0 with
      | none => return .error .noRows
      | some parent => return lookupLoop t rest parent [] none

end CommonLib.XDNS.DNSBase
