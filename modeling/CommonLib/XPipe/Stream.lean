import CommonLib.XPipe.Pipe

/-!
# The stream through the pipe

What a step does to the bytes: nothing, or one of six effects on the buffer, the record and the
`Write` calls under way.  The invariant is proved over the effects.
-/

namespace CommonLib.XPipe

open XSync Reasoning

namespace State

/-- The `Write` calls under way that do not hold the lock. -/
def outside (s : State) : Multiset WriteCall := ↑s.testing + ↑s.writing + s.wTrigger.members

/-- The `Write` calls under way. -/
def writers (s : State) : Multiset WriteCall :=
  match s.lock with
  | some ⟨_, some w⟩ => w ::ₘ s.outside
  | _ => s.outside

end State

/-- The part of the state that the bytes pass through. -/
structure Core where
  buffer : Bytes
  record : Record
  writers : Multiset WriteCall
  nextId : Nat

inductive Effect (max : Nat) (c : Core) : Core → Prop
  | idle : Effect max c c
  -- a `Write` starts, under the next number
  | begin (b : Bytes) :
      Effect max c ⟨c.buffer, c.record, ⟨c.nextId, b, b, 0⟩ ::ₘ c.writers, c.nextId + 1⟩
  -- a `Write` finds its deadline passed and returns at once
  | refuse (b : Bytes) (err : Option PipeError) :
      Effect max c ⟨c.buffer, c.record.returned (.write c.nextId b 0 err), c.writers, c.nextId + 1⟩
  -- one of them appends a piece that fits
  | append (w : WriteCall) (ws : Multiset WriteCall) (m : Nat) (hw : c.writers = w ::ₘ ws)
      (hm : m ≤ w.rest.length) (hspace : m ≤ max - c.buffer.length) :
      Effect max c ⟨c.buffer ++ w.rest.take m,
        { c.record with appends := c.record.appends ++ [(w.id, w.rest.take m)] },
        { w with rest := w.rest.drop m, n := w.n + m } ::ₘ ws, c.nextId⟩
  -- one of them returns, with what it has appended so far
  | finish (w : WriteCall) (ws : Multiset WriteCall) (err : Option PipeError)
      (hw : c.writers = w ::ₘ ws) :
      Effect max c ⟨c.buffer, c.record.returned (.write w.id w.arg w.n err), ws, c.nextId⟩
  | deliver (m : Nat) :
      Effect max c ⟨c.buffer.drop m, c.record.returned (.read (c.buffer.take m) none c.buffer),
        c.writers, c.nextId⟩
  -- a `Read` returns no data
  | fail (err : PipeError) (hclosed : err = .closed → c.buffer = []) :
      Effect max c ⟨c.buffer, c.record.returned (.read [] (some err) c.buffer), c.writers, c.nextId⟩

/-! ## The sections -/

namespace State

/-- The core with the given `Write` calls under way. -/
def coreWith (s : State) (ws : Multiset WriteCall) : Core := ⟨s.buffer, s.record, ws, s.nextId⟩

def core (s : State) : Core := s.coreWith s.writers

theorem core_of_unlocked {s : State} (h : s.lock.isNone = true) :
    s.core = s.coreWith s.outside := by
  rw [core, writers, Option.isNone_iff_eq_none.mp h]

section Sections

variable {max : Nat} (s : State) (len : ReadCall) (w : WriteCall)

theorem close_outside : s.close.1.outside = s.outside ∧ s.close.1.buffer = s.buffer ∧
    s.close.1.record = s.record ∧ s.close.1.nextId = s.nextId := by
  rw [close]
  split <;> exact ⟨rfl, rfl, rfl, rfl⟩

theorem coreWith_close (ws : Multiset WriteCall) : s.close.1.coreWith ws = s.coreWith ws := by
  obtain ⟨-, hbuffer, hrecord, hnext⟩ := s.close_outside
  rw [coreWith, coreWith, hbuffer, hrecord, hnext]

theorem deliver_effect (sends : List Side) :
    Effect max (s.coreWith s.outside) (s.deliver len sends).core :=
  .deliver (min s.buffer.length len)

theorem readWait_effect (hempty : s.buffer = []) :
    Effect max (s.coreWith s.outside) (s.readWait len).core := by
  rw [readWait]
  split
  · exact .fail .deadlineExceeded nofun
  · split
    · exact .fail .closed fun _ ↦ hempty
    · exact .idle

theorem readHead_effect : Effect max (s.coreWith s.outside) (s.readHead len).core := by
  rw [readHead]
  split
  next hempty => exact s.readWait_effect len hempty
  next => exact s.deliver_effect len []

theorem readFailed_effect (err : PipeError) (sends : List Side) :
    Effect max (s.coreWith s.outside) (s.readFailed len err sends).core := by
  rw [readFailed]
  split
  next hempty => exact .fail err fun _ ↦ hempty
  next => exact s.deliver_effect len sends

theorem readWoken_effect (notified : Bool) :
    Effect max (s.coreWith s.outside) (s.readWoken len notified).core := by
  rw [readWoken]
  split
  · split
    · exact s.readFailed_effect len ..
    · split
      · exact s.readFailed_effect len ..
      · exact s.readHead_effect len
  · -- the context is done: the pipe is closed, which moves no byte
    have heffect : Effect max _ _ := s.close.1.readFailed_effect len .context s.close.2
    rwa [s.close_outside.1, coreWith_close] at heffect

theorem returnWrite_effect (err : Option PipeError) (sends : List Side) :
    Effect max (s.coreWith (w ::ₘ s.outside)) (s.returnWrite w err sends).core :=
  .finish w s.outside err rfl

theorem writeWait_effect : Effect max (s.coreWith (w ::ₘ s.outside)) (s.writeWait w).core := by
  rw [writeWait]
  split
  · exact s.returnWrite_effect w ..
  · split
    · exact s.returnWrite_effect w ..
    · -- it goes from holding the lock to waiting: it stays under way
      have houtside : ({ s with wTrigger := s.wTrigger.register w, lock := none } : State).core =
          s.coreWith (w ::ₘ s.outside) := by
        rw [core, writers, outside, outside, Cond.members_register, Multiset.add_cons]
        rfl
      rw [houtside]
      exact .idle

theorem writeHead_effect :
    Effect max (s.coreWith (w ::ₘ s.outside)) (s.writeHead max w).core := by
  rw [writeHead]
  split
  · exact s.returnWrite_effect w ..
  · split
    · exact s.writeWait_effect w
    · exact .append w s.outside _ rfl (min_le_left ..) (min_le_right ..)

theorem writeWoken_effect (notified : Bool) :
    Effect max (s.coreWith (w ::ₘ s.outside)) (s.writeWoken max w notified).core := by
  rw [writeWoken]
  split
  · split
    · exact s.returnWrite_effect w ..
    · split
      · exact s.returnWrite_effect w ..
      · exact s.writeHead_effect w
  · have heffect : Effect max _ _ := s.close.1.returnWrite_effect w (some .context) s.close.2
    rwa [s.close_outside.1, coreWith_close] at heffect

end Sections

/-! ## The steps -/

theorem writers_eq {s t : State} (hlock : t.lock = s.lock) (h : t.outside = s.outside) :
    t.writers = s.writers := by
  rw [writers, writers, hlock, h]

theorem writers_cons {s t : State} {w : WriteCall} (hlock : t.lock = s.lock)
    (h : t.outside = w ::ₘ s.outside) : t.writers = w ::ₘ s.writers := by
  rw [writers, writers, hlock, h]
  split
  · exact Multiset.cons_swap ..
  · rfl

end State

open State

variable {max : Nat} {s t : State}

/-- The bytes and the `Write` calls under way are as before. -/
theorem Effect.of_same (hbuffer : t.buffer = s.buffer) (hrecord : t.record = s.record)
    (hwriters : t.writers = s.writers) (hnext : t.nextId = s.nextId) :
    Effect max s.core t.core := by
  have hcore : t.core = s.core := by
    rw [core, core, coreWith, coreWith, hbuffer, hrecord, hwriters, hnext]
  rw [hcore]
  exact .idle

/-- A step of a call inside the `Wait` of a `Write`. -/
theorem wTrigger_effect {c : Cond WriteCall} (h : c.members = s.wTrigger.members) :
    Effect max s.core ({ s with wTrigger := c } : State).core :=
  .of_same rfl rfl (writers_eq rfl (by rw [outside, outside, h])) rfl

theorem write_effect (b : Bytes) : Effect max s.core ({ s with
    nextId := s.nextId + 1
    testing := ⟨s.nextId, b, b, 0⟩ :: s.testing } : State).core := by
  have hwriters : ({ s with
      nextId := s.nextId + 1
      testing := ⟨s.nextId, b, b, 0⟩ :: s.testing } : State).writers =
      ⟨s.nextId, b, b, 0⟩ ::ₘ s.writers :=
    writers_cons rfl (by
      rw [outside, outside, ← Multiset.cons_coe, Multiset.cons_add, Multiset.cons_add])
  have hbegin : Effect max s.core
      ⟨s.buffer, s.record, ⟨s.nextId, b, b, 0⟩ ::ₘ s.writers, s.nextId + 1⟩ := .begin b
  rw [← hwriters] at hbegin
  exact hbegin

theorem writers_of_testing {w : WriteCall} (hmem : w ∈ s.testing) :
    s.writers = w ::ₘ ({ s with testing := s.testing.erase w } : State).writers :=
  writers_cons rfl (by
    rw [outside, outside, Cond.coe_eq_cons_erase hmem, Multiset.cons_add, Multiset.cons_add])

theorem writeTest_effect {w : WriteCall} (hmem : w ∈ s.testing) : Effect max s.core ({ s with
    testing := s.testing.erase w
    writing := w :: s.writing } : State).core := by
  have hback : ({ s with
      testing := s.testing.erase w
      writing := w :: s.writing } : State).writers = s.writers := by
    rw [writers_of_testing hmem]
    refine writers_cons rfl ?_
    rw [outside, outside, ← Multiset.cons_coe, Multiset.add_cons, Multiset.cons_add]
  exact .of_same rfl rfl hback rfl

theorem writeLock_effect {w : WriteCall} (hlock : s.lock.isNone = true) (hmem : w ∈ s.writing) :
    Effect max s.core ({ s with writing := s.writing.erase w }.writeHead max w).core := by
  have houtside : s.outside = w ::ₘ ({ s with writing := s.writing.erase w } : State).outside := by
    rw [outside, outside, Cond.coe_eq_cons_erase hmem, Multiset.add_cons, Multiset.cons_add]
  rw [core_of_unlocked hlock, houtside]
  exact writeHead_effect { s with writing := s.writing.erase w } w

theorem wRelock_effect {w : WriteCall} {notified : Bool} {c : Cond WriteCall}
    (hlock : s.lock.isNone = true) (hc : s.wTrigger.relock w notified = some c) :
    Effect max s.core ({ s with wTrigger := c }.writeWoken max w notified).core := by
  have houtside : s.outside = w ::ₘ ({ s with wTrigger := c } : State).outside := by
    rw [outside, outside, Cond.members_relock hc, Multiset.add_cons]
  rw [core_of_unlocked hlock, houtside]
  exact writeWoken_effect { s with wTrigger := c } w notified

/-- The `Write` that goes on after its broadcast, if there is one, keeps the lock. -/
theorem writers_of_hold {rest : List Side} {side : Side} {next : Option WriteCall}
    (hlock : s.lock = some ⟨side :: rest, next⟩) (ht : t.lock = some ⟨rest, next⟩)
    (houtside : t.outside = s.outside) : t.writers = s.writers := by
  rw [writers, writers, hlock, ht, houtside]
  cases next <;> rfl

/-- Every step has one of the effects. -/
theorem step_effect {e : Event} (hstep : step max s e = some t) : Effect max s.core t.core := by
  cases step_taken hstep with
  | tick | cancel | read | rTake | rPark | rCancel => exact .idle
  | readLate => exact .fail .deadlineExceeded fun h ↦ absurd h (by decide)
  | @readLock len hlock hmem =>
      rw [core_of_unlocked hlock]
      exact readHead_effect { s with reading := s.reading.erase len } len
  | writeLate => exact .refuse _ _
  | write => exact write_effect _
  | writeRefused hmem => exact .finish _ _ _ (writers_of_testing hmem)
  | writeTest hmem => exact writeTest_effect hmem
  | writeLock hlock hmem => exact writeLock_effect hlock hmem
  | close hlock =>
      have hcore : (s.close.1.holding s.close.2 none).core = s.coreWith s.outside := by
        rw [← coreWith_close, ← s.close_outside.1]
        rfl
      rw [core_of_unlocked hlock, hcore]
      exact .idle
  | @setDeadline time which hlock =>
      rw [core_of_unlocked hlock]
      cases which <;> exact .idle
  | @rRelock len notified c hlock hc =>
      rw [core_of_unlocked hlock]
      exact readWoken_effect { s with rTrigger := c } len notified
  | wTake hc => exact wTrigger_effect (Cond.members_take hc)
  | wPark hc => exact wTrigger_effect (Cond.members_park hc)
  | wCancel hc => exact wTrigger_effect (Cond.members_cancel hc)
  | wRelock hlock hc => exact wRelock_effect hlock hc
  | rSend hlock => exact .of_same rfl rfl (writers_of_hold hlock rfl rfl) rfl
  | wSend hlock =>
      refine .of_same rfl rfl (writers_of_hold hlock rfl ?_) rfl
      rw [outside, outside, Cond.members_signal]
  | @resume w hlock =>
      have hwriters : s.writers = w ::ₘ s.outside := by rw [writers, hlock]
      rw [core, hwriters]
      exact writeHead_effect { s with lock := none } w
  | unlock hlock => exact .of_same rfl rfl (by rw [writers, writers, hlock]; rfl) rfl

/-! ## Integrity -/

/-- The bytes that the `Write` with this number has appended. -/
def Record.pieces (r : Record) (id : Nat) : Bytes :=
  ((r.appends.filter fun p ↦ p.1 = id).map Prod.snd).flatten

/-- The bytes that `Write` calls have appended. -/
def Record.appended (r : Record) : Bytes := (r.appends.map Prod.snd).flatten

def Return.data : Return → Bytes
  | .read data .. => data
  | .write .. => []

/-- The bytes that `Read` calls have returned. -/
def Record.delivered (r : Record) : Bytes := (r.returns.map Return.data).flatten

def Return.writeId : Return → Option Nat
  | .read .. => none
  | .write id .. => some id

/-- The numbers of the `Write` calls under way and returned. -/
def Core.ids (c : Core) : Multiset Nat :=
  c.writers.map WriteCall.id + ↑(c.record.returns.filterMap Return.writeId)

/-- The bytes read and those in the buffer are the bytes written, in order; a `Write` has appended
the first `n` bytes of its argument, whatever error it returns with; the buffer is bounded; and
`os.ErrClosed` is returned to a `Read` only at the end. -/
structure Intact (max : Nat) (c : Core) : Prop where
  stream : c.record.delivered ++ c.buffer = c.record.appended
  writes : ∀ id arg n err, .write id arg n err ∈ c.record.returns →
    n ≤ arg.length ∧ c.record.pieces id = arg.take n
  bounded : c.buffer.length ≤ max
  closed : ∀ data buffer, .read data (some .closed) buffer ∈ c.record.returns → buffer = []

/-- What a `Write` under way has appended and what it has left. -/
structure Progress (r : Record) (w : WriteCall) : Prop where
  pieces : r.pieces w.id = w.arg.take w.n
  rest : w.rest = w.arg.drop w.n
  le : w.n ≤ w.arg.length

structure Inv (max : Nat) (c : Core) : Prop extends Intact max c where
  progress : ∀ w ∈ c.writers, Progress c.record w
  distinct : c.ids.Nodup
  fresh : ∀ i ∈ c.ids, i < c.nextId
  appended : ∀ p ∈ c.record.appends, p.1 < c.nextId

theorem Progress.of_appends {r r' : Record} {w : WriteCall} (h : Progress r w)
    (heq : r'.appends = r.appends) : Progress r' w :=
  ⟨by rw [Record.pieces, heq]; exact h.pieces, h.rest, h.le⟩

theorem pieces_of_fresh {c : Core} (h : ∀ p ∈ c.record.appends, p.1 < c.nextId) :
    c.record.pieces c.nextId = [] := by
  have hnone : (c.record.appends.filter fun p ↦ p.1 = c.nextId) = [] := by
    apply List.filter_eq_nil_iff.mpr
    intro p hp hid
    exact absurd (of_decide_eq_true hid) (h p hp).ne
  rw [Record.pieces, hnone]
  rfl

theorem appended_append (r : Record) (id : Nat) (piece : Bytes) :
    ({ r with appends := r.appends ++ [(id, piece)] } : Record).appended =
      r.appended ++ piece := by
  simp [Record.appended]

/-- A piece counts for its own `Write`. -/
theorem pieces_append (r : Record) (id id' : Nat) (piece : Bytes) :
    ({ r with appends := r.appends ++ [(id, piece)] } : Record).pieces id' =
      r.pieces id' ++ if id = id' then piece else [] := by
  rw [Record.pieces, Record.pieces, List.filter_append, List.map_append, List.flatten_append]
  by_cases h : id = id'
  · simp [h]
  · simp [h]

theorem returned_writes {r : Record} {ret : Return} {P : Nat → Bytes → Nat → Prop}
    (h : ∀ id arg n err, .write id arg n err ∈ r.returns → P id arg n)
    (hret : ∀ id arg n err, ret = .write id arg n err → P id arg n) :
    ∀ id arg n err, .write id arg n err ∈ (r.returned ret).returns → P id arg n := by
  intro id arg n err hmem
  obtain hold | hnew := List.mem_append.mp hmem
  · exact h id arg n err hold
  · exact hret id arg n err (List.mem_singleton.mp hnew).symm

theorem returned_closed {r : Record} {ret : Return}
    (h : ∀ data buffer, .read data (some .closed) buffer ∈ r.returns → buffer = [])
    (hret : ∀ data buffer, ret = .read data (some .closed) buffer → buffer = []) :
    ∀ data buffer, .read data (some .closed) buffer ∈ (r.returned ret).returns → buffer = [] := by
  intro data buffer hmem
  obtain hold | hnew := List.mem_append.mp hmem
  · exact h data buffer hold
  · exact hret data buffer (List.mem_singleton.mp hnew).symm

theorem delivered_returned (r : Record) (ret : Return) :
    (r.returned ret).delivered = r.delivered ++ ret.data := by
  simp [Record.delivered, Record.returned]

theorem filterMap_writeId (r : Record) (ret : Return) :
    (r.returned ret).returns.filterMap Return.writeId =
      r.returns.filterMap Return.writeId ++ ret.writeId.toList := by
  rw [Record.returned, List.filterMap_append]
  cases ret <;> rfl

section Effects

variable {c : Core}

theorem Inv.distinct_cons (h : Inv max c) : (c.nextId ::ₘ c.ids).Nodup :=
  Multiset.nodup_cons.mpr ⟨fun hmem ↦ absurd (h.fresh _ hmem) (Nat.lt_irrefl _), h.distinct⟩

theorem Inv.fresh_cons (h : Inv max c) : ∀ i ∈ c.nextId ::ₘ c.ids, i < c.nextId + 1 := by
  intro i hi
  obtain rfl | hi := Multiset.mem_cons.mp hi
  · exact Nat.lt_succ_self _
  · exact Nat.lt_succ_of_lt (h.fresh i hi)

theorem begin_inv (h : Inv max c) (b : Bytes) :
    Inv max ⟨c.buffer, c.record, ⟨c.nextId, b, b, 0⟩ ::ₘ c.writers, c.nextId + 1⟩ := by
  have hids : (⟨c.buffer, c.record, ⟨c.nextId, b, b, 0⟩ ::ₘ c.writers, c.nextId + 1⟩ : Core).ids =
      c.nextId ::ₘ c.ids := by
    rw [Core.ids, Core.ids, Multiset.map_cons, Multiset.cons_add]
  refine ⟨⟨h.stream, h.writes, h.bounded, h.closed⟩, ?_, ?_, ?_, ?_⟩
  · intro w hw
    obtain rfl | hw := Multiset.mem_cons.mp hw
    · -- nothing has been appended under the new number
      exact ⟨pieces_of_fresh h.appended, rfl, Nat.zero_le _⟩
    · exact h.progress w hw
  · rw [hids]
    exact h.distinct_cons
  · rw [hids]
    exact h.fresh_cons
  · intro p hp
    exact Nat.lt_succ_of_lt (h.appended p hp)

theorem refuse_inv (h : Inv max c) (b : Bytes) (err : Option PipeError) :
    Inv max ⟨c.buffer, c.record.returned (.write c.nextId b 0 err), c.writers, c.nextId + 1⟩ := by
  have hids : (⟨c.buffer, c.record.returned (.write c.nextId b 0 err), c.writers,
      c.nextId + 1⟩ : Core).ids = c.nextId ::ₘ c.ids := by
    rw [Core.ids, Core.ids, filterMap_writeId, ← Multiset.coe_add, ← add_assoc, add_comm]
    rfl
  have hstream := h.stream
  refine ⟨⟨?_, ?_, h.bounded, ?_⟩, fun w hw ↦ (h.progress w hw).of_appends rfl, ?_, ?_, ?_⟩
  · rwa [delivered_returned, Return.data, List.append_nil]
  · refine returned_writes h.writes fun id arg n err' heq ↦ ?_
    cases heq
    exact ⟨Nat.zero_le _, pieces_of_fresh h.appended⟩
  · exact returned_closed h.closed nofun
  · rw [hids]
    exact h.distinct_cons
  · rw [hids]
    exact h.fresh_cons
  · intro p hp
    exact Nat.lt_succ_of_lt (h.appended p hp)

/-- The piece takes up the argument where the earlier ones have left it. -/
theorem Progress.append {r : Record} {w : WriteCall} (h : Progress r w) {m : Nat}
    (hm : m ≤ w.rest.length) :
    Progress { r with appends := r.appends ++ [(w.id, w.rest.take m)] }
      { w with rest := w.rest.drop m, n := w.n + m } := by
  have hle := h.le
  rw [h.rest, List.length_drop] at hm
  refine ⟨?_, ?_, by dsimp only; omega⟩
  · rw [pieces_append, if_pos rfl, h.pieces, h.rest, ← List.take_add]
  · dsimp only
    rw [h.rest, List.drop_drop]

theorem append_inv (h : Inv max c) {w : WriteCall} {ws : Multiset WriteCall} {m : Nat}
    (hw : c.writers = w ::ₘ ws) (hm : m ≤ w.rest.length) (hspace : m ≤ max - c.buffer.length) :
    Inv max ⟨c.buffer ++ w.rest.take m,
      { c.record with appends := c.record.appends ++ [(w.id, w.rest.take m)] },
      { w with rest := w.rest.drop m, n := w.n + m } ::ₘ ws, c.nextId⟩ := by
  have hids : (⟨c.buffer ++ w.rest.take m,
      { c.record with appends := c.record.appends ++ [(w.id, w.rest.take m)] },
      { w with rest := w.rest.drop m, n := w.n + m } ::ₘ ws, c.nextId⟩ : Core).ids = c.ids := by
    rw [Core.ids, Core.ids, hw, Multiset.map_cons, Multiset.map_cons]
  -- no other call, under way or returned, has the number of this one
  have hsplit : c.ids = w.id ::ₘ
      (ws.map WriteCall.id + ↑(c.record.returns.filterMap Return.writeId)) := by
    rw [Core.ids, hw, Multiset.map_cons, Multiset.cons_add]
  have hnotin := (Multiset.nodup_cons.mp (hsplit ▸ h.distinct)).1
  have hbounded := h.bounded
  refine ⟨⟨?_, ?_, ?_, h.closed⟩, ?_, hids ▸ h.distinct, hids ▸ h.fresh, ?_⟩
  · rw [appended_append, ← h.stream, ← List.append_assoc]
    rfl
  · intro id arg n err hmem
    have hne : w.id ≠ id := by
      rintro rfl
      refine hnotin (Multiset.mem_add.mpr (.inr (Multiset.mem_coe.mpr ?_)))
      exact List.mem_filterMap.mpr ⟨_, hmem, rfl⟩
    rw [pieces_append, if_neg hne, List.append_nil]
    exact h.writes id arg n err hmem
  · simp only [List.length_append, List.length_take]
    omega
  · intro w' hw'
    obtain rfl | hw' := Multiset.mem_cons.mp hw'
    · exact (h.progress w (hw ▸ Multiset.mem_cons_self w ws)).append hm
    · have hne : w.id ≠ w'.id := fun heq ↦
        hnotin (Multiset.mem_add.mpr (.inl (heq ▸ Multiset.mem_map_of_mem _ hw')))
      have hprogress := h.progress w' (hw ▸ Multiset.mem_cons_of_mem hw')
      refine ⟨?_, hprogress.rest, hprogress.le⟩
      rw [pieces_append, if_neg hne, List.append_nil]
      exact hprogress.pieces
  · intro p hp
    obtain hp | hp := List.mem_append.mp hp
    · exact h.appended p hp
    · rw [List.mem_singleton.mp hp]
      exact h.fresh w.id (hsplit ▸ Multiset.mem_cons_self ..)

theorem finish_inv (h : Inv max c) {w : WriteCall} {ws : Multiset WriteCall}
    (err : Option PipeError) (hw : c.writers = w ::ₘ ws) :
    Inv max ⟨c.buffer, c.record.returned (.write w.id w.arg w.n err), ws, c.nextId⟩ := by
  have hids : (⟨c.buffer, c.record.returned (.write w.id w.arg w.n err), ws,
      c.nextId⟩ : Core).ids = c.ids := by
    rw [Core.ids, Core.ids, filterMap_writeId, ← Multiset.coe_add, ← add_assoc, add_comm, hw,
      Multiset.map_cons, Multiset.cons_add]
    rfl
  have hprogress := h.progress w (hw ▸ Multiset.mem_cons_self w ws)
  have hstream := h.stream
  refine ⟨⟨?_, ?_, h.bounded, returned_closed h.closed nofun⟩, ?_, hids ▸ h.distinct,
    hids ▸ h.fresh, h.appended⟩
  · rwa [delivered_returned, Return.data, List.append_nil]
  · refine returned_writes h.writes fun id arg n err' heq ↦ ?_
    cases heq
    exact ⟨hprogress.le, hprogress.pieces⟩
  · intro w' hw'
    exact (h.progress w' (hw ▸ Multiset.mem_cons_of_mem hw')).of_appends rfl

theorem ids_returnRead (buffer data : Bytes) (err : Option PipeError) (found : Bytes) :
    (⟨buffer, c.record.returned (.read data err found), c.writers, c.nextId⟩ : Core).ids =
      c.ids := by
  rw [Core.ids, Core.ids, filterMap_writeId]
  simp [Return.writeId]

theorem deliver_inv (h : Inv max c) (m : Nat) :
    Inv max ⟨c.buffer.drop m, c.record.returned (.read (c.buffer.take m) none c.buffer),
      c.writers, c.nextId⟩ := by
  have hids := ids_returnRead (c := c) (c.buffer.drop m) (c.buffer.take m) none c.buffer
  have hbounded := h.bounded
  refine ⟨⟨?_, returned_writes h.writes nofun, ?_, returned_closed h.closed nofun⟩,
    fun w hw ↦ (h.progress w hw).of_appends rfl, hids ▸ h.distinct, hids ▸ h.fresh, h.appended⟩
  · rw [delivered_returned, Return.data, List.append_assoc, List.take_append_drop]
    exact h.stream
  · simp only [List.length_drop]
    omega

theorem fail_inv (h : Inv max c) (err : PipeError) (hclosed : err = .closed → c.buffer = []) :
    Inv max ⟨c.buffer, c.record.returned (.read [] (some err) c.buffer), c.writers,
      c.nextId⟩ := by
  have hids := ids_returnRead (c := c) c.buffer [] (some err) c.buffer
  have hstream := h.stream
  refine ⟨⟨?_, returned_writes h.writes nofun, h.bounded, ?_⟩,
    fun w hw ↦ (h.progress w hw).of_appends rfl, hids ▸ h.distinct, hids ▸ h.fresh, h.appended⟩
  · rwa [delivered_returned, Return.data, List.append_nil]
  · refine returned_closed h.closed fun data buffer heq ↦ ?_
    cases heq
    exact hclosed rfl

end Effects

theorem effect_inv {c d : Core} (h : Inv max c) (heffect : Effect max c d) : Inv max d := by
  cases heffect with
  | idle => exact h
  | begin b => exact begin_inv h b
  | refuse b err => exact refuse_inv h b err
  | append w ws m hw hm hspace => exact append_inv h hw hm hspace
  | finish w ws err hw => exact finish_inv h err hw
  | deliver m => exact deliver_inv h m
  | fail err hclosed => exact fail_inv h err hclosed

theorem inv_init (now : Time) : Inv max (State.init now).core := by
  refine ⟨⟨rfl, nofun, Nat.zero_le _, nofun⟩, ?_, ?_, ?_, nofun⟩
  · intro w hw
    exact absurd hw (Multiset.notMem_zero w)
  · exact Multiset.nodup_zero
  · intro i hi
    exact absurd hi (Multiset.notMem_zero i)

/-- In every state of every run the stream is intact. -/
theorem stream_intact (max : Nat) (now : Time) (events : List Event) :
    EveryState (step max) (fun s ↦ Intact max s.core) events (State.init now) := by
  have hinv : EveryState (step max) (fun s ↦ Inv max s.core) events (State.init now) :=
    everyState_of_inv (fun s e t hs hstep ↦ effect_inv hs (step_effect hstep)) events (inv_init now)
  exact hinv.imp fun s hs ↦ hs.toIntact

end CommonLib.XPipe
