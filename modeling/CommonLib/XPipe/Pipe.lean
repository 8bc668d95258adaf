import CommonLib.Reasoning.Run
import CommonLib.XSync.Cond

/-!
# The pipe

`pipe.go` as a system of calls under way.  A step is what a call does from one of its waits to the
next: an unlocked test, or a section under the lock up to a broadcast, the `Wait`, or its return.
The sends of a broadcast are steps of their own, during which the lock is held and the goroutines
inside `Wait` go on.  The record is of what the calls have moved and returned.
-/

namespace CommonLib.XPipe

open XSync Reasoning

abbrev Bytes := List UInt8

/-- Clock readings; `0` is the zero `time.Time`. -/
abbrev Time := Int

/-- `os.ErrDeadlineExceeded`, `os.ErrClosed`, and the error of the context. -/
inductive PipeError
  | deadlineExceeded
  | closed
  | context
deriving DecidableEq

/-- A `Read`, as the length of its argument. -/
abbrev ReadCall := Nat

/-- A `Write`: its number and its argument, what is left of the argument, and `n`. -/
structure WriteCall where
  id : Nat
  arg : Bytes
  rest : Bytes
  n : Nat
deriving DecidableEq

inductive Side
  | read
  | write
deriving DecidableEq

/-- What the holder of the lock has still to do: sends to the triggers, and then, for a `Write`, the
rest of its loop; or it unlocks. -/
structure Hold where
  sends : List Side
  next : Option WriteCall

/-- What a call has returned; a `Read` with the buffer as it found it. -/
inductive Return
  | read (data : Bytes) (err : Option PipeError) (buffer : Bytes)
  | write (id : Nat) (arg : Bytes) (n : Nat) (err : Option PipeError)

structure Record where
  -- The pieces appended, each with the number of its `Write`.
  appends : List (Nat × Bytes)
  -- In the order of the sections that the calls return from.
  returns : List Return

def Record.returned (r : Record) (ret : Return) : Record :=
  { r with returns := r.returns ++ [ret] }

structure State where
  closed : Bool
  buffer : Bytes
  rdeadline : Time
  wdeadline : Time
  rTrigger : Cond ReadCall
  wTrigger : Cond WriteCall
  lock : Option Hold
  clock : Time
  contextDone : Bool
  -- Calls that are about to take the lock for the first time, and `Write` calls before their test
  -- of `closed`.
  reading : List ReadCall
  testing : List WriteCall
  writing : List WriteCall
  nextId : Nat
  record : Record

def isDeadlineHappened (deadline now : Time) : Bool :=
  if deadline = 0 then false else decide (deadline < now)

namespace State

def init (now : Time) : State :=
  ⟨false, [], 0, 0, .new, .new, none, now, false, [], [], [], 0, ⟨[], []⟩⟩

/-- The sends of a broadcast: one for each waiter at its start, and the number does not change
while the lock is held. -/
def rBroadcast (s : State) : List Side := List.replicate s.rTrigger.waiters .read

def wBroadcast (s : State) : List Side := List.replicate s.wTrigger.waiters .write

/-- `close`, and the sends of its broadcasts. -/
def close (s : State) : State × List Side :=
  if s.closed then (s, [])
  else ({ s with closed := true }, s.rBroadcast ++ s.wBroadcast)

/-- The lock is held until the sends are done. -/
def holding (s : State) (sends : List Side) (next : Option WriteCall) : State :=
  { s with lock := some ⟨sends, next⟩ }

/-! ## Read -/

def returnRead (s : State) (err : PipeError) (sends : List Side) : State :=
  { s.holding sends none with record := s.record.returned (.read [] (some err) s.buffer) }

/-- The end of `Read`, with the bytes it returns. -/
def deliver (s : State) (len : ReadCall) (sends : List Side) : State :=
  let m := min s.buffer.length len
  { s.holding (sends ++ s.wBroadcast) none with
    buffer := s.buffer.drop m
    record := s.record.returned (.read (s.buffer.take m) none s.buffer) }

/-- `wait` up to the unlock of `Wait`, for a `Read`. -/
def readWait (s : State) (len : ReadCall) : State :=
  if isDeadlineHappened s.rdeadline s.clock then s.returnRead .deadlineExceeded []
  else if s.closed then s.returnRead .closed []
  else { s with rTrigger := s.rTrigger.register len, lock := none }

/-- The test of the loop. -/
def readHead (s : State) (len : ReadCall) : State :=
  if s.buffer = [] then s.readWait len else s.deliver len []

/-- `wait` has returned an error. -/
def readFailed (s : State) (len : ReadCall) (err : PipeError) (sends : List Side) : State :=
  if s.buffer = [] then s.returnRead err sends else s.deliver len sends

/-- `Wait` has returned, with the lock held. -/
def readWoken (s : State) (len : ReadCall) (notified : Bool) : State :=
  if notified then
    if s.closed then s.readFailed len .closed []
    else if isDeadlineHappened s.rdeadline s.clock then s.readFailed len .deadlineExceeded []
    else s.readHead len
  else
    let (s, sends) := s.close
    s.readFailed len .context sends

/-! ## Write -/

def returnWrite (s : State) (w : WriteCall) (err : Option PipeError) (sends : List Side) : State :=
  { s.holding sends none with record := s.record.returned (.write w.id w.arg w.n err) }

/-- A piece is appended; the loop goes on after the broadcast. -/
def append (max : Nat) (s : State) (w : WriteCall) : State :=
  let m := min w.rest.length (max - s.buffer.length)
  { s.holding s.rBroadcast (some { w with rest := w.rest.drop m, n := w.n + m }) with
    buffer := s.buffer ++ w.rest.take m
    record := { s.record with appends := s.record.appends ++ [(w.id, w.rest.take m)] } }

/-- `wait` up to the unlock of `Wait`, for a `Write`. -/
def writeWait (s : State) (w : WriteCall) : State :=
  if isDeadlineHappened s.wdeadline s.clock then s.returnWrite w (some .deadlineExceeded) []
  else if s.closed then s.returnWrite w (some .closed) []
  else { s with wTrigger := s.wTrigger.register w, lock := none }

/-- The loop of `Write`, from its test to the next broadcast or `Wait`. -/
def writeHead (max : Nat) (s : State) (w : WriteCall) : State :=
  if w.rest = [] then s.returnWrite w none []
  else if max - s.buffer.length = 0 then s.writeWait w
  else s.append max w

/-- `Wait` has returned, with the lock held.  The rest of the round is the round of a `Write` that
has not waited, since the space left is computed again. -/
def writeWoken (max : Nat) (s : State) (w : WriteCall) (notified : Bool) : State :=
  if notified then
    if s.closed then s.returnWrite w (some .closed) []
    else if isDeadlineHappened s.wdeadline s.clock then s.returnWrite w (some .deadlineExceeded) []
    else s.writeHead max w
  else
    let (s, sends) := s.close
    s.returnWrite w (some .context) sends

/-- A `Write` that returns before it has taken the lock. -/
def refuse (s : State) (w : WriteCall) (err : PipeError) : State :=
  { s with record := s.record.returned (.write w.id w.arg w.n (some err)) }

/-! ## Deadlines -/

inductive Deadline
  | both
  | read
  | write

def setDeadline (s : State) (t : Time) : Deadline → State
  | .both => { s.holding (s.rBroadcast ++ s.wBroadcast) none with rdeadline := t, wdeadline := t }
  | .read => { s.holding s.rBroadcast none with rdeadline := t }
  | .write => { s.holding s.wBroadcast none with wdeadline := t }

end State

/-! ## Steps -/

inductive Event
  | tick (now : Time)
  | cancel
  -- A call of `Read` or `Write`, up to its first test.
  | read (len : ReadCall)
  | readLock (len : ReadCall)
  | write (b : Bytes)
  | writeTest (w : WriteCall)
  | writeLock (w : WriteCall)
  | close
  | setDeadline (t : Time) (which : State.Deadline)
  -- Inside `Wait`.
  | rTake (len : ReadCall)
  | rPark (len : ReadCall)
  | rCancel (len : ReadCall)
  | rRelock (len : ReadCall) (notified : Bool)
  | wTake (w : WriteCall)
  | wPark (w : WriteCall)
  | wCancel (w : WriteCall)
  | wRelock (w : WriteCall) (notified : Bool)
  -- The holder of the lock: its next send, the rest of its loop, its unlock.
  | send
  | resume
  | unlock

open State in
def step (max : Nat) (s : State) : Event → Option State
  | .tick now => if s.clock ≤ now then some { s with clock := now } else none
  | .cancel => some { s with contextDone := true }
  | .read len =>
      if isDeadlineHappened s.rdeadline s.clock then
        some { s with record := s.record.returned (.read [] (some .deadlineExceeded) s.buffer) }
      else some { s with reading := len :: s.reading }
  | .readLock len =>
      if s.lock.isNone ∧ len ∈ s.reading then
        some ({ s with reading := s.reading.erase len }.readHead len)
      else none
  | .write b =>
      let w : WriteCall := ⟨s.nextId, b, b, 0⟩
      let s := { s with nextId := s.nextId + 1 }
      if isDeadlineHappened s.wdeadline s.clock then some (s.refuse w .deadlineExceeded)
      else some { s with testing := w :: s.testing }
  | .writeTest w =>
      if w ∈ s.testing then
        let s := { s with testing := s.testing.erase w }
        if s.closed then some (s.refuse w .closed)
        else some { s with writing := w :: s.writing }
      else none
  | .writeLock w =>
      if s.lock.isNone ∧ w ∈ s.writing then
        some ({ s with writing := s.writing.erase w }.writeHead max w)
      else none
  | .close =>
      if s.lock.isNone then
        let (s, sends) := s.close
        some (s.holding sends none)
      else none
  | .setDeadline t which => if s.lock.isNone then some (s.setDeadline t which) else none
  | .rTake len => (s.rTrigger.take len).map ({ s with rTrigger := · })
  | .rPark len =>
      if s.contextDone then none else (s.rTrigger.park len).map ({ s with rTrigger := · })
  | .rCancel len =>
      if s.contextDone then (s.rTrigger.cancel len).map ({ s with rTrigger := · }) else none
  | .rRelock len notified =>
      if s.lock.isNone then
        (s.rTrigger.relock len notified).map fun c ↦
          { s with rTrigger := c }.readWoken len notified
      else none
  | .wTake w => (s.wTrigger.take w).map ({ s with wTrigger := · })
  | .wPark w =>
      if s.contextDone then none else (s.wTrigger.park w).map ({ s with wTrigger := · })
  | .wCancel w =>
      if s.contextDone then (s.wTrigger.cancel w).map ({ s with wTrigger := · }) else none
  | .wRelock w notified =>
      if s.lock.isNone then
        (s.wTrigger.relock w notified).map fun c ↦
          { s with wTrigger := c }.writeWoken max w notified
      else none
  | .send =>
      match s.lock with
      | some ⟨.read :: rest, next⟩ =>
          some { s with rTrigger := s.rTrigger.signal, lock := some ⟨rest, next⟩ }
      | some ⟨.write :: rest, next⟩ =>
          some { s with wTrigger := s.wTrigger.signal, lock := some ⟨rest, next⟩ }
      | _ => none
  | .resume =>
      match s.lock with
      | some ⟨[], some w⟩ => some ({ s with lock := none }.writeHead max w)
      | _ => none
  | .unlock =>
      match s.lock with
      | some ⟨[], none⟩ => some { s with lock := none }
      | _ => none

/-! ## What a step can be -/

/-- The steps with what they need and the state they lead to, one constructor for each outcome. -/
inductive Taken (max : Nat) (s : State) : Event → State → Prop
  | tick {now : Time} (h : s.clock ≤ now) : Taken max s (.tick now) { s with clock := now }
  | cancel : Taken max s .cancel { s with contextDone := true }
  | readLate {len : ReadCall} : Taken max s (.read len)
      { s with record := s.record.returned (.read [] (some .deadlineExceeded) s.buffer) }
  | read {len : ReadCall} : Taken max s (.read len) { s with reading := len :: s.reading }
  | readLock {len : ReadCall} (hlock : s.lock.isNone = true) (hmem : len ∈ s.reading) :
      Taken max s (.readLock len) ({ s with reading := s.reading.erase len }.readHead len)
  | writeLate {b : Bytes} : Taken max s (.write b)
      ({ s with nextId := s.nextId + 1 }.refuse ⟨s.nextId, b, b, 0⟩ .deadlineExceeded)
  | write {b : Bytes} : Taken max s (.write b)
      { s with nextId := s.nextId + 1, testing := ⟨s.nextId, b, b, 0⟩ :: s.testing }
  | writeRefused {w : WriteCall} (hmem : w ∈ s.testing) : Taken max s (.writeTest w)
      ({ s with testing := s.testing.erase w }.refuse w .closed)
  | writeTest {w : WriteCall} (hmem : w ∈ s.testing) : Taken max s (.writeTest w)
      { s with testing := s.testing.erase w, writing := w :: s.writing }
  | writeLock {w : WriteCall} (hlock : s.lock.isNone = true) (hmem : w ∈ s.writing) :
      Taken max s (.writeLock w) ({ s with writing := s.writing.erase w }.writeHead max w)
  | close (hlock : s.lock.isNone = true) :
      Taken max s .close (s.close.1.holding s.close.2 none)
  | setDeadline {t : Time} {which : State.Deadline} (hlock : s.lock.isNone = true) :
      Taken max s (.setDeadline t which) (s.setDeadline t which)
  | rTake {len : ReadCall} {c : Cond ReadCall} (hc : s.rTrigger.take len = some c) :
      Taken max s (.rTake len) { s with rTrigger := c }
  | rPark {len : ReadCall} {c : Cond ReadCall} (hc : s.rTrigger.park len = some c) :
      Taken max s (.rPark len) { s with rTrigger := c }
  | rCancel {len : ReadCall} {c : Cond ReadCall} (hc : s.rTrigger.cancel len = some c) :
      Taken max s (.rCancel len) { s with rTrigger := c }
  | rRelock {len : ReadCall} {notified : Bool} {c : Cond ReadCall} (hlock : s.lock.isNone = true)
      (hc : s.rTrigger.relock len notified = some c) :
      Taken max s (.rRelock len notified) ({ s with rTrigger := c }.readWoken len notified)
  | wTake {w : WriteCall} {c : Cond WriteCall} (hc : s.wTrigger.take w = some c) :
      Taken max s (.wTake w) { s with wTrigger := c }
  | wPark {w : WriteCall} {c : Cond WriteCall} (hc : s.wTrigger.park w = some c) :
      Taken max s (.wPark w) { s with wTrigger := c }
  | wCancel {w : WriteCall} {c : Cond WriteCall} (hc : s.wTrigger.cancel w = some c) :
      Taken max s (.wCancel w) { s with wTrigger := c }
  | wRelock {w : WriteCall} {notified : Bool} {c : Cond WriteCall} (hlock : s.lock.isNone = true)
      (hc : s.wTrigger.relock w notified = some c) :
      Taken max s (.wRelock w notified) ({ s with wTrigger := c }.writeWoken max w notified)
  | rSend {rest : List Side} {next : Option WriteCall}
      (hlock : s.lock = some ⟨.read :: rest, next⟩) : Taken max s .send
      { s with rTrigger := s.rTrigger.signal, lock := some ⟨rest, next⟩ }
  | wSend {rest : List Side} {next : Option WriteCall}
      (hlock : s.lock = some ⟨.write :: rest, next⟩) : Taken max s .send
      { s with wTrigger := s.wTrigger.signal, lock := some ⟨rest, next⟩ }
  | resume {w : WriteCall} (hlock : s.lock = some ⟨[], some w⟩) :
      Taken max s .resume ({ s with lock := none }.writeHead max w)
  | unlock (hlock : s.lock = some ⟨[], none⟩) : Taken max s .unlock { s with lock := none }

theorem step_taken {max : Nat} {s t : State} {e : Event} (h : step max s e = some t) :
    Taken max s e t := by
  cases e with
  | tick now =>
      rw [step, Option.ite_none_right_eq_some, Option.some.injEq] at h
      obtain ⟨hle, rfl⟩ := h
      exact .tick hle
  | cancel =>
      cases h
      exact .cancel
  | read len =>
      rw [step] at h
      split at h
      · cases h
        exact .readLate
      · cases h
        exact .read
  | readLock len =>
      rw [step, Option.ite_none_right_eq_some, Option.some.injEq] at h
      obtain ⟨⟨hlock, hmem⟩, rfl⟩ := h
      exact .readLock hlock hmem
  | write b =>
      rw [step] at h
      split at h
      · cases h
        exact .writeLate
      · cases h
        exact .write
  | writeTest w =>
      rw [step, Option.ite_none_right_eq_some] at h
      obtain ⟨hmem, h⟩ := h
      dsimp only at h
      split at h
      · cases h
        exact .writeRefused hmem
      · cases h
        exact .writeTest hmem
  | writeLock w =>
      rw [step, Option.ite_none_right_eq_some, Option.some.injEq] at h
      obtain ⟨⟨hlock, hmem⟩, rfl⟩ := h
      exact .writeLock hlock hmem
  | close =>
      rw [step, Option.ite_none_right_eq_some, Option.some.injEq] at h
      obtain ⟨hlock, rfl⟩ := h
      exact .close hlock
  | setDeadline time which =>
      rw [step, Option.ite_none_right_eq_some, Option.some.injEq] at h
      obtain ⟨hlock, rfl⟩ := h
      exact .setDeadline hlock
  | rTake len =>
      obtain ⟨c, hc, rfl⟩ := Option.map_eq_some_iff.mp h
      exact .rTake hc
  | rPark len =>
      rw [step, Option.ite_none_left_eq_some] at h
      obtain ⟨c, hc, rfl⟩ := Option.map_eq_some_iff.mp h.2
      exact .rPark hc
  | rCancel len =>
      rw [step, Option.ite_none_right_eq_some] at h
      obtain ⟨c, hc, rfl⟩ := Option.map_eq_some_iff.mp h.2
      exact .rCancel hc
  | rRelock len notified =>
      rw [step, Option.ite_none_right_eq_some] at h
      obtain ⟨c, hc, rfl⟩ := Option.map_eq_some_iff.mp h.2
      exact .rRelock h.1 hc
  | wTake w =>
      obtain ⟨c, hc, rfl⟩ := Option.map_eq_some_iff.mp h
      exact .wTake hc
  | wPark w =>
      rw [step, Option.ite_none_left_eq_some] at h
      obtain ⟨c, hc, rfl⟩ := Option.map_eq_some_iff.mp h.2
      exact .wPark hc
  | wCancel w =>
      rw [step, Option.ite_none_right_eq_some] at h
      obtain ⟨c, hc, rfl⟩ := Option.map_eq_some_iff.mp h.2
      exact .wCancel hc
  | wRelock w notified =>
      rw [step, Option.ite_none_right_eq_some] at h
      obtain ⟨c, hc, rfl⟩ := Option.map_eq_some_iff.mp h.2
      exact .wRelock h.1 hc
  | send =>
      rw [step] at h
      split at h
      next hlock =>
        cases h
        exact .rSend hlock
      next hlock =>
        cases h
        exact .wSend hlock
      next => cases h
  | resume =>
      rw [step] at h
      split at h
      next hlock =>
        cases h
        exact .resume hlock
      next => cases h
  | unlock =>
      rw [step] at h
      split at h
      next hlock =>
        cases h
        exact .unlock hlock
      next => cases h

end CommonLib.XPipe
