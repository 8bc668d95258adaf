import CommonLib.Reasoning.Chain
import CommonLib.Reasoning.Crash

/-!
# The doubly linked list

`list.go`, which keeps its elements in a ring through a sentinel.  Elements are addresses into a heap
and the sentinel is the address 0; the heap is that of one list, so that the field `list` of an
element is either this list or nil.
-/

namespace CommonLib

open Reasoning

namespace LinkedList

/-- An `*Element`. -/
abbrev Ref := Nat

structure Element (V : Type) where
  next : Option Ref
  prev : Option Ref
  -- Whether `list` points to the list; it is nil otherwise.
  list : Bool
  value : V

end LinkedList

structure LinkedList (V : Type) where
  heap : LinkedList.Ref → LinkedList.Element V
  -- The next address `&Element{}` returns.
  fresh : LinkedList.Ref
  len : Int

namespace LinkedList

variable {V : Type}

/-- `&l.root`. -/
def root : Ref := 0

def modify (l : LinkedList V) (e : Ref) (change : Element V → Element V) : LinkedList V :=
  { l with heap := Function.update l.heap e (change (l.heap e)) }

/-- `p.next = q`, where the pointer `p` may be nil. -/
def setNext (l : LinkedList V) (p q : Option Ref) : Except Crash (LinkedList V) :=
  match p with
  | some e => .ok (l.modify e fun element ↦ { element with next := q })
  | none => .error (.panic "invalid memory address or nil pointer dereference")

/-- `p.prev = q`, where the pointer `p` may be nil. -/
def setPrev (l : LinkedList V) (p q : Option Ref) : Except Crash (LinkedList V) :=
  match p with
  | some e => .ok (l.modify e fun element ↦ { element with prev := q })
  | none => .error (.panic "invalid memory address or nil pointer dereference")

def init (l : LinkedList V) : LinkedList V :=
  { l.modify root fun element ↦ { element with next := some root, prev := some root } with len := 0 }

def new [Inhabited V] : LinkedList V :=
  init ⟨fun _ ↦ ⟨none, none, false, default⟩, 1, 0⟩

def front (l : LinkedList V) : Option Ref := if l.len = 0 then none else (l.heap root).next

/-- `e.Next()`. -/
def next (l : LinkedList V) (e : Ref) : Option Ref :=
  if (l.heap e).list = true ∧ (l.heap e).next ≠ some root then (l.heap e).next else none

def lazyInit (l : LinkedList V) : LinkedList V :=
  if (l.heap root).next = none then l.init else l

/-- The four assignments by which `insert` and `move` put `e` behind `pos`. -/
def link (l : LinkedList V) (e pos : Ref) : Except Crash (LinkedList V) := do
  let l := l.modify e fun element ↦ { element with prev := some pos }
  let l := l.modify e fun element ↦ { element with next := (l.heap pos).next }
  let l ← l.setNext (l.heap e).prev (some e)
  l.setPrev (l.heap e).next (some e)

/-- The two assignments by which `remove` and `move` take `e` out. -/
def unlink (l : LinkedList V) (e : Ref) : Except Crash (LinkedList V) := do
  let l ← l.setNext (l.heap e).prev (l.heap e).next
  l.setPrev (l.heap e).next (l.heap e).prev

def insert (l : LinkedList V) (e pos : Ref) : Except Crash (LinkedList V) := do
  let l ← l.link e pos
  let l := l.modify e fun element ↦ { element with list := true }
  return { l with len := l.len + 1 }

/-- `&Element{Value: v}`. -/
def alloc (l : LinkedList V) (v : V) : LinkedList V :=
  { l with
    heap := Function.update l.heap l.fresh ⟨none, none, false, v⟩
    fresh := l.fresh + 1 }

/-- `insertValue`, and the new element. -/
def insertValue (l : LinkedList V) (v : V) (pos : Ref) : Except Crash (Ref × LinkedList V) := do
  return (l.fresh, ← (l.alloc v).insert l.fresh pos)

def remove (l : LinkedList V) (e : Ref) : Except Crash (LinkedList V) := do
  let l ← l.unlink e
  let l := l.modify e fun element ↦ { element with next := none, prev := none, list := false }
  return { l with len := l.len - 1 }

def move (l : LinkedList V) (e pos : Ref) : Except Crash (LinkedList V) :=
  if e = pos then .ok l
  else do
    let l ← l.unlink e
    l.link e pos

/-- The exported `Remove`, which tests whether the list has the element. -/
def Remove (l : LinkedList V) (e : Ref) : Except Crash (V × LinkedList V) := do
  let l ← if (l.heap e).list = true then l.remove e else .ok l
  return ((l.heap e).value, l)

def pushBack (l : LinkedList V) (v : V) : Except Crash (Ref × LinkedList V) :=
  let l := l.lazyInit
  match (l.heap root).prev with
  | some back => l.insertValue v back
  | none => .error (.panic "invalid memory address or nil pointer dereference")

def moveToFront (l : LinkedList V) (e : Ref) : Except Crash (LinkedList V) :=
  if (l.heap e).list = false ∨ (l.heap root).next = some e then .ok l else l.move e root

/-- `e.Value = v`. -/
def setValue (l : LinkedList V) (e : Ref) (v : V) : LinkedList V :=
  l.modify e fun element ↦ { element with value := v }

/-- A loop `for e := l.Front(); e != nil; e = e.Next()` that stops at the first value with `p`; it is
given up after `fuel` elements. -/
def searchFrom (l : LinkedList V) (p : V → Bool) : Nat → Option Ref → Except Crash (Option Ref)
  | _, none => .ok none
  | 0, some _ => .error .outOfFuel
  | fuel + 1, some e =>
      if p (l.heap e).value then .ok (some e) else l.searchFrom p fuel (l.next e)

def search (l : LinkedList V) (p : V → Bool) : Except Crash (Option Ref) :=
  l.searchFrom p l.len.toNat l.front

end LinkedList

end CommonLib
