import CommonLib.XPipe.Stream

/-!
# The end of the stream

A `Read` that returns `os.ErrClosed` has found the pipe closed and empty.  A `Write` tests `closed`
before it takes the lock and again only when it waits, so one that passed the test in time appends
to a pipe that its readers have left.
-/

namespace CommonLib.XPipe

open XSync Reasoning

/-- What the end of the stream depends on; `next` is the `Write` that holds the lock. -/
structure Face where
  closed : Bool
  buffer : Bytes
  record : Record
  next : Option WriteCall

def State.face (s : State) : Face := ⟨s.closed, s.buffer, s.record, s.lock.bind Hold.next⟩

/-- A `Read` has returned `os.ErrClosed`. -/
def Record.Ended (r : Record) : Prop :=
  ∃ data buffer, .read data (some .closed) buffer ∈ r.returns

theorem ended_returned {r : Record} {ret : Return} :
    (r.returned ret).Ended ↔ r.Ended ∨ ∃ data buffer, ret = .read data (some .closed) buffer := by
  constructor
  · rintro ⟨data, buffer, hmem⟩
    obtain hold | hnew := List.mem_append.mp hmem
    · exact .inl ⟨data, buffer, hold⟩
    · exact .inr ⟨data, buffer, (List.mem_singleton.mp hnew).symm⟩
  · rintro (⟨data, buffer, hmem⟩ | ⟨data, buffer, rfl⟩)
    · exact ⟨data, buffer, List.mem_append_left _ hmem⟩
    · exact ⟨data, buffer, List.mem_append_right _ (List.mem_singleton.mpr rfl)⟩

/-- No byte moves; `os.ErrClosed` is returned to a `Read` only if the pipe is closed and empty. -/
structure Quiet (f g : Face) : Prop where
  closed : f.closed = true → g.closed = true
  buffer : g.buffer = f.buffer
  appended : g.record.appended = f.record.appended
  delivered : g.record.delivered = f.record.delivered
  ended : g.record.Ended → f.record.Ended ∨ (g.closed = true ∧ f.buffer = [])
  next : g.next = none ∨ g.next = f.next

/-- A `Read` takes bytes from the buffer. -/
structure Delivers (f g : Face) : Prop where
  closed : f.closed = true → g.closed = true
  buffer : f.buffer ≠ []
  ended : g.record.Ended → f.record.Ended
  next : g.next = none

/-- A `Write` appends a piece, and has then nothing left or has filled the buffer. -/
structure Appends (max : Nat) (w : WriteCall) (f g : Face) : Prop where
  closed : g.closed = f.closed
  rest : w.rest ≠ []
  space : 0 < max
  appended : g.record.appended ≠ f.record.appended
  ended : g.record.Ended → f.record.Ended
  next : ∀ w', g.next = some w' → w'.rest = [] ∨ max - g.buffer.length = 0

/-- A call returns without data. -/
theorem Quiet.of_returned {s t : State} {ret : Return} (hrecord : t.record = s.record.returned ret)
    (hdata : ret.data = []) (hclosed : t.closed = s.closed) (hbuffer : t.buffer = s.buffer)
    (hended : ∀ data buffer, ret = .read data (some .closed) buffer →
      s.closed = true ∧ s.buffer = [])
    (hnext : t.face.next = none ∨ t.face.next = s.face.next) : Quiet s.face t.face where
  closed hs := hclosed.trans hs
  buffer := hbuffer
  appended := by
    change t.record.appended = s.record.appended
    rw [hrecord]
    rfl
  delivered := by
    change t.record.delivered = s.record.delivered
    rw [hrecord, delivered_returned, hdata, List.append_nil]
  ended ht := by
    change t.record.Ended at ht
    rw [hrecord] at ht
    obtain hold | ⟨data, buffer, heq⟩ := ended_returned.mp ht
    · exact .inl hold
    · obtain ⟨hs, hempty⟩ := hended data buffer heq
      exact .inr ⟨hclosed.trans hs, hempty⟩
  next := hnext

/-! ## The sections -/

namespace State

variable (s : State) (len : ReadCall) (w : WriteCall)

theorem returnRead_quiet (err : PipeError) (sends : List Side)
    (h : err = .closed → s.closed = true ∧ s.buffer = []) :
    Quiet s.face (s.returnRead err sends).face := by
  refine .of_returned rfl rfl rfl rfl (fun data buffer heq ↦ ?_) (.inl rfl)
  cases heq
  exact h rfl

theorem returnWrite_quiet (err : Option PipeError) (sends : List Side) :
    Quiet s.face (s.returnWrite w err sends).face := by
  refine .of_returned rfl rfl rfl rfl (fun data buffer heq ↦ ?_) (.inl rfl)
  cases heq

theorem refuse_quiet (err : PipeError) : Quiet s.face (s.refuse w err).face := by
  refine .of_returned rfl rfl rfl rfl (fun data buffer heq ↦ ?_) (.inr rfl)
  cases heq

theorem deliver_delivers (sends : List Side) (h : s.buffer ≠ []) :
    Delivers s.face (s.deliver len sends).face where
  closed := id
  buffer := h
  ended hended := by
    obtain hold | ⟨data, buffer, heq⟩ := ended_returned.mp hended
    · exact hold
    · cases heq
  next := rfl

theorem append_appends {max : Nat} (hrest : w.rest ≠ []) (hspace : max - s.buffer.length ≠ 0) :
    Appends max w s.face (s.append max w).face := by
  have hpos := List.length_pos_of_ne_nil hrest
  have happended : (s.append max w).record.appended =
      s.record.appended ++ w.rest.take (min w.rest.length (max - s.buffer.length)) :=
    appended_append ..
  have hlength : (s.append max w).buffer.length =
      s.buffer.length + min w.rest.length (max - s.buffer.length) := by
    simp [append, List.length_take]
  refine ⟨rfl, hrest, by omega, fun h ↦ ?_, id, fun w' h ↦ ?_⟩
  · have hsame := congrArg List.length (happended.symm.trans h)
    rw [List.length_append, List.length_take] at hsame
    change _ = s.record.appended.length at hsame
    omega
  · -- the piece is all that is left, or all that fits
    cases h
    change _ ∨ max - (s.append max w).buffer.length = 0
    rw [hlength]
    by_cases hall : w.rest.length ≤ max - s.buffer.length
    · left
      rw [min_eq_left hall, List.drop_length]
    · right
      omega

theorem readWait_quiet (h : s.buffer = []) : Quiet s.face (s.readWait len).face := by
  rw [readWait]
  split
  · exact s.returnRead_quiet _ [] fun h ↦ absurd h (by decide)
  · split
    -- the only place where a `Read` returns `os.ErrClosed` without having waited
    next hclosed => exact s.returnRead_quiet _ [] fun _ ↦ ⟨hclosed, h⟩
    next => exact ⟨id, rfl, rfl, rfl, .inl, .inl rfl⟩

theorem readHead_kind :
    Quiet s.face (s.readHead len).face ∨ Delivers s.face (s.readHead len).face := by
  rw [readHead]
  split
  next h => exact .inl (s.readWait_quiet len h)
  next h => exact .inr (s.deliver_delivers len [] h)

theorem readFailed_kind (err : PipeError) (sends : List Side)
    (h : err = .closed → s.closed = true) :
    Quiet s.face (s.readFailed len err sends).face ∨
      Delivers s.face (s.readFailed len err sends).face := by
  rw [readFailed]
  split
  next hempty => exact .inl (s.returnRead_quiet err sends fun herr ↦ ⟨h herr, hempty⟩)
  next hne => exact .inr (s.deliver_delivers len sends hne)

/-- Closing the pipe moves no byte. -/
theorem quiet_of_close {g : Face} (h : Quiet s.close.1.face g) : Quiet s.face g := by
  rw [close] at h
  split at h
  · exact h
  · exact ⟨fun _ ↦ h.closed rfl, h.buffer, h.appended, h.delivered, h.ended, h.next⟩

theorem delivers_of_close {g : Face} (h : Delivers s.close.1.face g) : Delivers s.face g := by
  rw [close] at h
  split at h
  · exact h
  · exact ⟨fun _ ↦ h.closed rfl, h.buffer, h.ended, h.next⟩

theorem readWoken_kind (notified : Bool) :
    Quiet s.face (s.readWoken len notified).face ∨
      Delivers s.face (s.readWoken len notified).face := by
  rw [readWoken]
  split
  · split
    next hclosed => exact s.readFailed_kind len _ [] fun _ ↦ hclosed
    next =>
      split
      · exact s.readFailed_kind len _ [] fun h ↦ absurd h (by decide)
      · exact s.readHead_kind len
  · have hkind := s.close.1.readFailed_kind len .context s.close.2 fun h ↦ absurd h (by decide)
    exact hkind.imp s.quiet_of_close s.delivers_of_close

theorem writeWait_quiet : Quiet s.face (s.writeWait w).face := by
  rw [writeWait]
  split
  · exact s.returnWrite_quiet w ..
  · split
    · exact s.returnWrite_quiet w ..
    · exact ⟨id, rfl, rfl, rfl, .inl, .inl rfl⟩

theorem writeHead_kind (max : Nat) :
    Quiet s.face (s.writeHead max w).face ∨ (max - s.buffer.length ≠ 0 ∧
      Appends max w s.face (s.writeHead max w).face) := by
  rw [writeHead]
  split
  next => exact .inl (s.returnWrite_quiet w ..)
  next hrest =>
    split
    next => exact .inl (s.writeWait_quiet w)
    next hspace => exact .inr ⟨hspace, s.append_appends w hrest hspace⟩

theorem writeWoken_kind (max : Nat) (notified : Bool) :
    Quiet s.face (s.writeWoken max w notified).face ∨ (s.closed = false ∧
      Appends max w s.face (s.writeWoken max w notified).face) := by
  rw [writeWoken]
  split
  · split
    next => exact .inl (s.returnWrite_quiet w ..)
    -- after a wait `closed` has just been tested
    next hclosed =>
      split
      · exact .inl (s.returnWrite_quiet w ..)
      · exact (s.writeHead_kind w max).imp id fun h ↦ ⟨Bool.eq_false_iff.mpr hclosed, h.2⟩
  · exact .inl (s.quiet_of_close (s.close.1.returnWrite_quiet w ..))

end State

/-! ## The steps -/

variable {max : Nat} {s t : State}

theorem Quiet.refl (f : Face) : Quiet f f := ⟨id, rfl, rfl, rfl, .inl, .inr rfl⟩

/-- A `Write` with the lock has nothing left, or has filled the buffer. -/
def Filled (max : Nat) (s : State) : Prop :=
  ∀ w, s.face.next = some w → w.rest = [] ∨ max - s.buffer.length = 0

/-- Only a `Write` that takes the lock for the first time appends to a closed pipe. -/
theorem step_kind {e : Event} (hfilled : Filled max s) (hstep : step max s e = some t) :
    Quiet s.face t.face ∨ Delivers s.face t.face ∨
      ∃ w, Appends max w s.face t.face ∧ (e = .writeLock w ∨ s.closed = false) := by
  cases step_taken hstep with
  | tick | cancel | read | write | writeTest | rTake | rPark | rCancel | wTake | wPark | wCancel =>
      exact .inl (.refl _)
  | readLate =>
      refine .inl (.of_returned rfl rfl rfl rfl (fun data buffer heq ↦ ?_) (.inr rfl))
      cases heq
  | @readLock len hlock hmem =>
      exact (State.readHead_kind { s with reading := s.reading.erase len } len).imp id .inl
  | writeLate => exact .inl (State.refuse_quiet { s with nextId := s.nextId + 1 } ..)
  | @writeRefused w hmem =>
      exact .inl (State.refuse_quiet { s with testing := s.testing.erase w } w .closed)
  | @writeLock w hlock hmem =>
      exact (State.writeHead_kind { s with writing := s.writing.erase w } w max).imp id
        fun h ↦ .inr ⟨w, h.2, .inl rfl⟩
  | close hlock => exact .inl (s.quiet_of_close ⟨id, rfl, rfl, rfl, .inl, .inl rfl⟩)
  | @setDeadline time which hlock =>
      cases which <;> exact .inl ⟨id, rfl, rfl, rfl, .inl, .inl rfl⟩
  | @rRelock len notified c hlock hc =>
      exact (State.readWoken_kind { s with rTrigger := c } len notified).imp id .inl
  | @wRelock w notified c hlock hc =>
      exact (State.writeWoken_kind { s with wTrigger := c } w max notified).imp id
        fun h ↦ .inr ⟨w, h.2, .inr h.1⟩
  | rSend hlock | wSend hlock =>
      exact .inl ⟨id, rfl, rfl, rfl, .inl, .inr (by simp [State.face, hlock])⟩
  | @resume w hlock =>
      -- the buffer is as the last piece has left it
      have hfull := hfilled w (by simp [State.face, hlock])
      obtain hquiet | ⟨hspace, happends⟩ := State.writeHead_kind { s with lock := none } w max
      · refine .inl ⟨hquiet.closed, hquiet.buffer, hquiet.appended, hquiet.delivered,
          hquiet.ended, .inl ?_⟩
        exact hquiet.next.elim id id
      · exact absurd hfull (not_or.mpr ⟨happends.rest, hspace⟩)
  | unlock hlock => exact .inl ⟨id, rfl, rfl, rfl, .inl, .inl rfl⟩

theorem writeLock_appends {w : WriteCall} (hstep : step max s (.writeLock w) = some t)
    (hbuffer : s.buffer = []) (hrest : w.rest ≠ []) (hspace : 0 < max) :
    Appends max w s.face t.face := by
  cases step_taken hstep
  have hleft : max - s.buffer.length ≠ 0 := by
    rw [hbuffer, List.length_nil]
    omega
  rw [State.writeHead, if_neg hrest, if_neg hleft]
  exact State.append_appends { s with writing := s.writing.erase w } w hrest hleft

/-! ## Finality -/

/-- In a step after a `Read` has returned `os.ErrClosed`, no byte is appended or delivered, and none
is left behind in the buffer. -/
def Final (max : Nat) (s : State) (e : Event) : Prop :=
  s.record.Ended → ∀ t, step max s e = some t →
    t.record.appended = s.record.appended ∧ t.record.delivered = s.record.delivered ∧ t.buffer = []

/-- No `Write` that has something to write takes the lock for the first time after a `Read` has
returned `os.ErrClosed`. -/
def InTime (max : Nat) (s : State) : Event → Prop
  | .writeLock w => w.rest ≠ [] → 0 < max → ¬ s.record.Ended
  | _ => True

/-- What holds until a late `Write`. -/
structure Drained (max : Nat) (s : State) : Prop where
  filled : Filled max s
  ended : s.record.Ended → s.closed = true ∧ s.buffer = []

theorem drained_init (now : Time) : Drained max (.init now) where
  filled := nofun
  ended := by
    rintro ⟨data, buffer, hmem⟩
    cases hmem

theorem filled_step {e : Event} (h : Filled max s) (hstep : step max s e = some t) :
    Filled max t := by
  intro w hw
  obtain hquiet | hdelivers | ⟨v, happends, -⟩ := step_kind h hstep
  · obtain hnone | hsame := hquiet.next
    · cases hnone.symm.trans hw
    · have hfull := h w (hsame.symm.trans hw)
      have hbuffer : t.buffer = s.buffer := hquiet.buffer
      rwa [hbuffer]
  · cases hdelivers.next.symm.trans hw
  · exact happends.next w hw

/-- As long as no byte is appended too late. -/
theorem drained_step {e : Event} (h : Drained max s) (hstep : step max s e = some t)
    (hintime : s.record.Ended → t.record.appended = s.record.appended) : Drained max t := by
  refine ⟨filled_step h.filled hstep, fun hended ↦ ?_⟩
  obtain hquiet | hdelivers | ⟨w, happends, -⟩ := step_kind h.filled hstep
  · have hbuffer : t.buffer = s.buffer := hquiet.buffer
    rw [hbuffer]
    obtain hold | hnew := hquiet.ended hended
    · obtain ⟨hclosed, hempty⟩ := h.ended hold
      exact ⟨hquiet.closed hclosed, hempty⟩
    · exact hnew
  · exact absurd (h.ended (hdelivers.ended hended)).2 hdelivers.buffer
  · exact absurd (hintime (happends.ended hended)) happends.appended

theorem appended_of_inTime {e : Event} (h : Drained max s) (hintime : InTime max s e)
    (hstep : step max s e = some t) (hended : s.record.Ended) :
    t.record.appended = s.record.appended := by
  obtain hquiet | hdelivers | ⟨w, happends, rfl | hopen⟩ := step_kind h.filled hstep
  · exact hquiet.appended
  · exact absurd (h.ended hended).2 hdelivers.buffer
  · -- a `Write` that takes the lock for the first time: too late
    exact absurd hended (hintime happends.rest happends.space)
  · -- one that has waited finds the pipe closed
    rw [(h.ended hended).1] at hopen
    cases hopen

theorem final_of_inTime {e : Event} (h : Drained max s) (hintime : InTime max s e) :
    Final max s e := by
  intro hended t hstep
  have happended := appended_of_inTime h hintime hstep hended
  obtain hquiet | hdelivers | ⟨w, happends, -⟩ := step_kind h.filled hstep
  · have hbuffer : t.buffer = s.buffer := hquiet.buffer
    exact ⟨happended, hquiet.delivered, hbuffer.trans (h.ended hended).2⟩
  · exact absurd (h.ended hended).2 hdelivers.buffer
  · exact absurd happended happends.appended

theorem inTime_of_final {e : Event} (h : Drained max s) (hfinal : Final max s e)
    (hstep : step max s e = some t) : InTime max s e := by
  cases e with
  | writeLock w =>
      intro hrest hspace hended
      -- the buffer is empty, so there is space for a first piece
      have happends := writeLock_appends hstep (h.ended hended).2 hrest hspace
      exact happends.appended (hfinal hended t hstep).1
  | _ => trivial

/-- The end of the stream is final exactly in the runs without a late `Write`. -/
theorem final_iff_inTime (max : Nat) (now : Time) (events : List Event) :
    EveryStep (step max) (Final max) events (.init now) ↔
      EveryStep (step max) (InTime max) events (.init now) := by
  constructor
  · intro hfinal
    apply hfinal.imp_of_inv (P := Drained max) _ (drained_init now)
    intro s e t h hok hstep
    refine ⟨inTime_of_final h hok hstep, drained_step h hstep fun hended ↦ ?_⟩
    exact (hok hended t hstep).1
  · intro hintime
    apply hintime.imp_of_inv (P := Drained max) _ (drained_init now)
    intro s e t h hok hstep
    exact ⟨final_of_inTime h hok, drained_step h hstep (appended_of_inTime h hok hstep)⟩

/-- A `Write` tests `closed`, the pipe is closed and a `Read` sees the end, and then the `Write`
takes the lock. -/
def lateWrite : List Event :=
  [.write [1], .writeTest ⟨0, [1], [1], 0⟩, .close, .unlock, .read 1, .readLock 1, .unlock,
    .writeLock ⟨0, [1], [1], 0⟩, .resume, .unlock]

/-- The `Write` is acknowledged, and its byte is in the buffer of a pipe whose end has been read. -/
theorem late_write_acknowledged :
    ∃ s, runSteps (step 16384) lateWrite (.init 1) = some s ∧ s.lock.isNone = true ∧
      s.record.returns = [.read [] (some .closed) [], .write 0 [1] 1 none] ∧ s.buffer = [1] ∧
      ¬ EveryStep (step 16384) (Final 16384) lateWrite (.init 1) := by
  refine ⟨_, rfl, rfl, rfl, rfl, fun h ↦ ?_⟩
  have hread := ((((h _ rfl).2 _ rfl).2 _ rfl).2 _ rfl).2
  have hwrite := (((hread _ rfl).2 _ rfl).2 _ rfl).2
  have hfinal := (hwrite _ rfl).1 ⟨[], [], List.mem_singleton.mpr rfl⟩ _ rfl
  cases hfinal.2.2

end CommonLib.XPipe
