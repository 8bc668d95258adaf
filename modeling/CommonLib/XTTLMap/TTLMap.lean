import CommonLib.Reasoning.Chain
import CommonLib.Reasoning.GoMap
import CommonLib.Reasoning.Run

/-!
# The TTL map

A map with deadlines and a bounded number of entries.  Its nodes form a doubly linked list from the
most to the least recently touched one; nodes are addresses into a heap, and a node that leaves the
list keeps the links it had.
-/

namespace CommonLib.XTTLMap

open CommonLib.Reasoning

/-- Clock readings in nanoseconds; `0` is the zero `time.Time`. -/
abbrev Time := Int

def second : Time := 1000000000

structure Item (V : Type) where
  value : V
  deadline : Time

def Item.expired {V : Type} (s : Item V) (now : Time) : Bool :=
  if s.deadline = 0 then false else decide (s.deadline < now)

abbrev Ptr := Nat

structure Node (K V : Type) where
  key : K
  item : Item V
  prev : Option Ptr
  next : Option Ptr

structure TTLMap (K V : Type) where
  heap : Ptr → Node K V
  -- The next address `&node{}` returns.
  fresh : Ptr
  items : GoMap K Ptr
  head : Option Ptr
  tail : Option Ptr
  lastCleanup : Time
  cleaning : Bool
  maxSize : Int

variable {K V : Type}

namespace TTLMap

def new [Inhabited K] [Inhabited V] (maxSize : Int) (now : Time) : TTLMap K V where
  heap := fun _ ↦ ⟨default, ⟨default, 0⟩, none, none⟩
  fresh := 0
  items := ∅
  head := none
  tail := none
  lastCleanup := now
  cleaning := false
  maxSize := maxSize

def setNext (s : TTLMap K V) (p : Ptr) (next : Option Ptr) : TTLMap K V :=
  { s with heap := Function.update s.heap p { s.heap p with next := next } }

def setPrev (s : TTLMap K V) (p : Ptr) (prev : Option Ptr) : TTLMap K V :=
  { s with heap := Function.update s.heap p { s.heap p with prev := prev } }

def setItem (s : TTLMap K V) (p : Ptr) (item : Item V) : TTLMap K V :=
  { s with heap := Function.update s.heap p { s.heap p with item := item } }

def addToFront (s : TTLMap K V) (node : Ptr) : TTLMap K V :=
  let s := (s.setNext node s.head).setPrev node none
  let s := match s.head with
    | some h => s.setPrev h (some node)
    | none => s
  { s with head := some node, tail := if s.tail = none then some node else s.tail }

/-- The first `if` of `removeNode`. -/
def unlinkNext (s : TTLMap K V) (node : Ptr) : TTLMap K V :=
  match (s.heap node).prev with
  | some q => s.setNext q (s.heap node).next
  | none => { s with head := (s.heap node).next }

/-- The second `if` of `removeNode`. -/
def unlinkPrev (s : TTLMap K V) (node : Ptr) : TTLMap K V :=
  match (s.heap node).next with
  | some q => s.setPrev q (s.heap node).prev
  | none => { s with tail := (s.heap node).prev }

def removeNode (s : TTLMap K V) (node : Ptr) : TTLMap K V :=
  (s.unlinkNext node).unlinkPrev node

def moveToFront (s : TTLMap K V) (node : Ptr) : TTLMap K V :=
  if s.head = some node then s else (s.removeNode node).addToFront node

variable [DecidableEq K]

/-- `delete(s.items, node.key)` and `s.removeNode(node)`. -/
def detach (s : TTLMap K V) (node : Ptr) : TTLMap K V :=
  { s with items := s.items.erase (s.heap node).key }.removeNode node

def removeOldest (s : TTLMap K V) : TTLMap K V :=
  match s.tail with
  | some t => s.detach t
  | none => s

/-- `for cond { s.removeOldest() }`, given up after `fuel` tests of the condition: the code then
still holds the lock. -/
def evictWhile (cond : TTLMap K V → Bool) : Nat → TTLMap K V → Option (TTLMap K V)
  | 0, _ => none
  | fuel + 1, s => if cond s then evictWhile cond fuel s.removeOldest else some s

def resize (s : TTLMap K V) (maxSize : Int) (fuel : Nat) : Option (TTLMap K V) :=
  let evicted :=
    if maxSize < s.maxSize then evictWhile (fun s ↦ decide (s.items.size > maxSize)) fuel s
    else some s
  evicted.map fun s ↦ { s with maxSize := maxSize }

/-- The end of `Set` and `Delete`, and whether it starts a cleanup goroutine; `since` and `now` are
the two clock readings. -/
def startCleanup (s : TTLMap K V) (since now : Time) : TTLMap K V × Bool :=
  if since - s.lastCleanup > second ∧ !s.cleaning then
    ({ s with cleaning := true, lastCleanup := now }, true)
  else (s, false)

def insertNew (s : TTLMap K V) (key : K) (value : V) (deadline : Time) : TTLMap K V :=
  let newNode := s.fresh
  let s := { s with
    heap := Function.update s.heap newNode ⟨key, ⟨value, deadline⟩, none, none⟩
    fresh := s.fresh + 1 }
  let s := s.addToFront newNode
  { s with items := s.items.insert key newNode }

def set (s : TTLMap K V) (key : K) (value : V) (deadline since now : Time) (fuel : Nat) :
    Option (TTLMap K V × Bool) :=
  match s.items.lookup key with
  | some node => some ((s.setItem node ⟨value, deadline⟩).moveToFront node, false)
  | none => do
      let s ← evictWhile (fun s ↦ decide (s.items.size ≥ s.maxSize)) fuel s
      return (s.insertNew key value deadline).startCleanup since now

def delete (s : TTLMap K V) (key : K) (since now : Time) : TTLMap K V × Bool :=
  let s := match s.items.lookup key with
    | some node => s.detach node
    | none => s
  s.startCleanup since now

/-- The locked check of `Get` and of `cleanupExpired`: the entry goes if it has expired. -/
def dropExpired (s : TTLMap K V) (key : K) (now : Time) : TTLMap K V :=
  match s.items.lookup key with
  | some node => if (s.heap node).item.expired now then s.detach node else s
  | none => s

/-- The keys `cleanupExpired` collects under the read lock, in the map's order. -/
def expiredKeys (s : TTLMap K V) (now : Time) : List K :=
  (s.items.entries.filter fun e ↦ (s.heap e.2).item.expired now).map (·.1)

end TTLMap

/-! ## Calls that are between two locked sections -/

inductive Call (K : Type)
  -- `Get` has found a node under the read lock and dropped the lock.
  | found (key : K) (node : Ptr)
  -- `Get` has seen it expired, and goes on to take the lock.
  | stale (key : K) (now : Time)
  -- `Get` has seen it valid, and goes on to take the lock and splice it.
  | valid (node : Ptr)
  | cleanup
  | scanned (now : Time) (keys : List K)
  | finishing
deriving DecidableEq

structure System (K V : Type) where
  map : TTLMap K V
  calls : Multiset (Call K)

inductive Event (K V : Type)
  | set (key : K) (value : V) (deadline since now : Time) (fuel : Nat)
  | delete (key : K) (since now : Time)
  | resize (maxSize : Int) (fuel : Nat)
  | getFind (key : K)
  | getCheck (key : K) (node : Ptr) (now : Time)
  | getDrop (key : K) (now : Time)
  | getTouch (node : Ptr)
  | cleanupCall
  | cleanupScan (now : Time) (keys : List K)
  | cleanupRemove (now : Time) (keys : List K)
  | cleanupDone

def System.init [Inhabited K] [Inhabited V] (maxSize : Int) (now : Time) : System K V :=
  ⟨.new maxSize now, 0⟩

variable [DecidableEq K]

/-- The call goes on to its next section. -/
def advance (calls : Multiset (Call K)) (call next : Call K) : Multiset (Call K) :=
  next ::ₘ calls.erase call

def spawned (calls : Multiset (Call K)) (spawn : Bool) : Multiset (Call K) :=
  if spawn then .cleanup ::ₘ calls else calls

/-- One locked section, or one unlocked test of a node's deadline. -/
def step (s : System K V) : Event K V → Option (System K V)
  | .set key value deadline since now fuel => do
      let (m, spawn) ← s.map.set key value deadline since now fuel
      return ⟨m, spawned s.calls spawn⟩
  | .delete key since now =>
      let (m, spawn) := s.map.delete key since now
      some ⟨m, spawned s.calls spawn⟩
  | .resize maxSize fuel => do
      let m ← s.map.resize maxSize fuel
      return ⟨m, s.calls⟩
  | .getFind key =>
      match s.map.items.lookup key with
      | some node => some ⟨s.map, .found key node ::ₘ s.calls⟩
      | none => some s
  | .getCheck key node now =>
      if .found key node ∈ s.calls then
        let next := if (s.map.heap node).item.expired now then .stale key now else .valid node
        some ⟨s.map, advance s.calls (.found key node) next⟩
      else none
  | .getDrop key now =>
      if .stale key now ∈ s.calls then
        some ⟨s.map.dropExpired key now, s.calls.erase (.stale key now)⟩
      else none
  | .getTouch node =>
      if .valid node ∈ s.calls then
        some ⟨s.map.moveToFront node, s.calls.erase (.valid node)⟩
      else none
  | .cleanupCall => some ⟨s.map, .cleanup ::ₘ s.calls⟩
  | .cleanupScan now keys =>
      -- The map is read in any order.
      if .cleanup ∈ s.calls ∧ keys.Perm (s.map.expiredKeys now) then
        let next := if keys = [] then .finishing else .scanned now keys
        some ⟨s.map, advance s.calls .cleanup next⟩
      else none
  | .cleanupRemove now keys =>
      if .scanned now keys ∈ s.calls then
        let m := keys.foldl (·.dropExpired · now) s.map
        some ⟨m, advance s.calls (.scanned now keys) .finishing⟩
      else none
  | .cleanupDone =>
      if .finishing ∈ s.calls then
        some ⟨{ s.map with cleaning := false }, s.calls.erase .finishing⟩
      else none

/-- What a step does to the map. -/
inductive Taken (m : TTLMap K V) : Event K V → System K V → Prop
  | set {key : K} {value : V} {deadline since now : Time} {fuel : Nat} {m' : TTLMap K V}
      {spawn : Bool} {calls : Multiset (Call K)}
      (hset : m.set key value deadline since now fuel = some (m', spawn)) :
      Taken m (.set key value deadline since now fuel) ⟨m', calls⟩
  | delete {key : K} {since now : Time} {calls : Multiset (Call K)} :
      Taken m (.delete key since now) ⟨(m.delete key since now).1, calls⟩
  | resize {maxSize : Int} {fuel : Nat} {m' : TTLMap K V} {calls : Multiset (Call K)}
      (hresize : m.resize maxSize fuel = some m') : Taken m (.resize maxSize fuel) ⟨m', calls⟩
  | getFind {key : K} {calls : Multiset (Call K)} : Taken m (.getFind key) ⟨m, calls⟩
  | getCheck {key : K} {node : Ptr} {now : Time} {calls : Multiset (Call K)} :
      Taken m (.getCheck key node now) ⟨m, calls⟩
  | getDrop {key : K} {now : Time} {calls : Multiset (Call K)} :
      Taken m (.getDrop key now) ⟨m.dropExpired key now, calls⟩
  | getTouch {node : Ptr} {calls : Multiset (Call K)} :
      Taken m (.getTouch node) ⟨m.moveToFront node, calls⟩
  | cleanupCall {calls : Multiset (Call K)} : Taken m .cleanupCall ⟨m, calls⟩
  | cleanupScan {now : Time} {keys : List K} {calls : Multiset (Call K)} :
      Taken m (.cleanupScan now keys) ⟨m, calls⟩
  | cleanupRemove {now : Time} {keys : List K} {calls : Multiset (Call K)} :
      Taken m (.cleanupRemove now keys) ⟨keys.foldl (·.dropExpired · now) m, calls⟩
  | cleanupDone {calls : Multiset (Call K)} :
      Taken m .cleanupDone ⟨{ m with cleaning := false }, calls⟩

theorem step_taken {s t : System K V} {e : Event K V} (hstep : step s e = some t) :
    Taken s.map e t := by
  cases e with
  | set key value deadline since now fuel =>
      obtain ⟨⟨m, spawn⟩, hset, hret⟩ := Option.bind_eq_some_iff.mp hstep
      cases hret
      exact .set hset
  | delete key since now =>
      cases hstep
      exact .delete
  | resize maxSize fuel =>
      obtain ⟨m, hresize, hret⟩ := Option.bind_eq_some_iff.mp hstep
      cases hret
      exact .resize hresize
  | getFind key =>
      simp only [step] at hstep
      split at hstep <;> cases hstep <;> exact .getFind
  | cleanupCall =>
      cases hstep
      exact .cleanupCall
  | getCheck | getDrop | getTouch | cleanupScan | cleanupRemove | cleanupDone =>
      simp only [step] at hstep
      split at hstep <;> cases hstep
      constructor

end CommonLib.XTTLMap
