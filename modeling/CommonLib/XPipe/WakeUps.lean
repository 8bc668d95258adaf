import CommonLib.XPipe.Stream

/-!
# Wake-ups

With one `Read` and one `Write` under way at a time, whoever waits for something that is there has a
notification in the channel of its trigger, or the holder of the lock is about to send one.
-/

namespace CommonLib.XPipe

open XSync Reasoning

namespace State

/-- The sends that the holder of the lock has still to do. -/
def sends (s : State) : List Side :=
  match s.lock with
  | some h => h.sends
  | none => []

/-- The number of `Read` calls under way. -/
def readers (s : State) : Nat := s.reading.length + s.rTrigger.members.card

end State

/-- What a wake-up depends on, with the sends that are still to be done. -/
structure View where
  rTrigger : Cond ReadCall
  wTrigger : Cond WriteCall
  buffer : Bytes
  closed : Bool
  sends : List Side

def State.view (s : State) (sends : List Side) : View :=
  ⟨s.rTrigger, s.wTrigger, s.buffer, s.closed, sends⟩

/-- The sends done or to be done reach whoever waits: a `Read` for bytes, a `Write` for space, both
for the close. -/
structure Watched (max : Nat) (v : View) : Prop where
  rSound : v.rTrigger.Sound
  wSound : v.wTrigger.Sound
  reader : v.rTrigger.pending ≠ [] → v.buffer ≠ [] ∨ v.closed = true →
    v.rTrigger.token = true ∨ .read ∈ v.sends
  writer : v.wTrigger.pending ≠ [] → v.buffer.length < max ∨ v.closed = true →
    v.wTrigger.token = true ∨ .write ∈ v.sends

theorem Watched.more {max : Nat} {s : State} (h : Watched max (s.view [])) (sends : List Side) :
    Watched max (s.view sends) where
  rSound := h.rSound
  wSound := h.wSound
  reader hpending hready :=
    .inl ((h.reader hpending hready).resolve_right List.not_mem_nil)
  writer hpending hready :=
    .inl ((h.writer hpending hready).resolve_right List.not_mem_nil)

/-! ## The sections -/

namespace State

variable {max : Nat} {s : State} {sends : List Side} (len : ReadCall) (w : WriteCall)

theorem close_watched (h : Watched max (s.view [])) : Watched max (s.close.1.view s.close.2) := by
  rw [close]
  split
  · exact h
  · refine ⟨h.rSound, h.wSound, fun hpending _ ↦ .inr ?_, fun hpending _ ↦ .inr ?_⟩
    · exact List.mem_append_left _ (h.rSound.mem_replicate hpending _)
    · exact List.mem_append_right _ (h.wSound.mem_replicate hpending _)

theorem returnRead_watched (h : Watched max (s.view sends)) (err : PipeError) :
    Watched max ((s.returnRead err sends).view sends) := h

theorem returnWrite_watched (h : Watched max (s.view sends)) (err : Option PipeError) :
    Watched max ((s.returnWrite w err sends).view sends) := h

theorem deliver_watched (h : Watched max (s.view sends)) :
    Watched max ((s.deliver len sends).view (sends ++ s.wBroadcast)) := by
  refine ⟨h.rSound, h.wSound, fun hpending hready ↦ ?_, fun hpending _ ↦ .inr ?_⟩
  · -- there is less to read than before
    have hready' : s.buffer ≠ [] ∨ s.closed = true := by
      refine hready.imp (fun hne hnil ↦ hne ?_) id
      change s.buffer.drop _ = []
      rw [hnil, List.drop_nil]
    exact (h.reader hpending hready').imp id (List.mem_append_left _)
  · exact List.mem_append_right _ (h.wSound.mem_replicate hpending _)

theorem readWait_watched (h : Watched max (s.view [])) (hempty : s.buffer = []) :
    Watched max ((s.readWait len).view (s.readWait len).sends) := by
  rw [readWait]
  split
  · exact returnRead_watched h _
  · split
    next => exact returnRead_watched h _
    next hopen =>
      -- the new waiter finds nothing to read
      refine ⟨h.rSound.register len, h.wSound, fun _ hready ↦ ?_, h.writer⟩
      exact absurd hready (not_or.mpr ⟨not_not.mpr hempty, hopen⟩)

theorem readHead_watched (h : Watched max (s.view [])) :
    Watched max ((s.readHead len).view (s.readHead len).sends) := by
  rw [readHead]
  split
  next hempty => exact readWait_watched len h hempty
  next => exact deliver_watched len h

theorem readFailed_watched (h : Watched max (s.view sends)) (err : PipeError) :
    Watched max ((s.readFailed len err sends).view (s.readFailed len err sends).sends) := by
  rw [readFailed]
  split
  · exact returnRead_watched h err
  · exact deliver_watched len h

theorem readWoken_watched (h : Watched max (s.view [])) (notified : Bool) :
    Watched max ((s.readWoken len notified).view (s.readWoken len notified).sends) := by
  rw [readWoken]
  split
  · split
    · exact readFailed_watched len h _
    · split
      · exact readFailed_watched len h _
      · exact readHead_watched len h
  · exact readFailed_watched len (close_watched h) _

theorem writeWait_watched (h : Watched max (s.view [])) (hfull : max - s.buffer.length = 0) :
    Watched max ((s.writeWait w).view (s.writeWait w).sends) := by
  rw [writeWait]
  split
  · exact returnWrite_watched w h _
  · split
    next => exact returnWrite_watched w h _
    next hopen =>
      -- the new waiter finds no space
      refine ⟨h.rSound, h.wSound.register w, h.reader, fun _ hready ↦ ?_⟩
      refine absurd hready (not_or.mpr ⟨?_, hopen⟩)
      change ¬ s.buffer.length < max
      omega

theorem append_watched (h : Watched max (s.view [])) :
    Watched max ((s.append max w).view s.rBroadcast) := by
  refine ⟨h.rSound, h.wSound, fun hpending _ ↦ .inr (h.rSound.mem_replicate hpending _), ?_⟩
  intro hpending hready
  -- there is less space than before
  have hready' : s.buffer.length < max ∨ s.closed = true := by
    refine hready.imp (fun hlt ↦ lt_of_le_of_lt ?_ hlt) id
    change s.buffer.length ≤ (s.buffer ++ _).length
    rw [List.length_append]
    exact Nat.le_add_right _ _
  exact .inl ((h.writer hpending hready').resolve_right List.not_mem_nil)

theorem writeHead_watched (h : Watched max (s.view [])) :
    Watched max ((s.writeHead max w).view (s.writeHead max w).sends) := by
  rw [writeHead]
  split
  · exact returnWrite_watched w h _
  · split
    next hfull => exact writeWait_watched w h hfull
    next => exact append_watched w h

theorem writeWoken_watched (h : Watched max (s.view [])) (notified : Bool) :
    Watched max ((s.writeWoken max w notified).view (s.writeWoken max w notified).sends) := by
  rw [writeWoken]
  split
  · split
    · exact returnWrite_watched w h _
    · split
      · exact returnWrite_watched w h _
      · exact writeHead_watched w h
  · exact returnWrite_watched w (close_watched h) _

/-! ## Who is under way -/

/-- At most `n` more `Read` calls are under way, and no `Write` has been numbered. -/
structure Within (n : Nat) (s t : State) : Prop where
  readers : t.readers ≤ s.readers + n
  nextId : t.nextId = s.nextId

variable (s)

theorem close_within : Within 0 s s.close.1 := by
  rw [close]
  split <;> exact ⟨le_rfl, rfl⟩

theorem readWait_within : Within 1 s (s.readWait len) := by
  rw [readWait]
  split
  · exact ⟨Nat.le_succ _, rfl⟩
  · split
    · exact ⟨Nat.le_succ _, rfl⟩
    · refine ⟨?_, rfl⟩
      rw [readers, readers, Cond.members_register, Multiset.card_cons, Nat.add_assoc]

theorem readHead_within : Within 1 s (s.readHead len) := by
  rw [readHead]
  split
  · exact s.readWait_within len
  · exact ⟨Nat.le_succ _, rfl⟩

theorem readFailed_within (err : PipeError) (sends : List Side) :
    Within 0 s (s.readFailed len err sends) := by
  rw [readFailed]
  split <;> exact ⟨le_rfl, rfl⟩

theorem readWoken_within (notified : Bool) : Within 1 s (s.readWoken len notified) := by
  have hfailed (s : State) (err : PipeError) (sends : List Side) :
      Within 1 s (s.readFailed len err sends) :=
    ⟨(s.readFailed_within len err sends).readers.trans (Nat.le_succ _),
      (s.readFailed_within len err sends).nextId⟩
  rw [readWoken]
  split
  · split
    · exact hfailed s ..
    · split
      · exact hfailed s ..
      · exact s.readHead_within len
  · have hclose := s.close_within
    have hread := hfailed s.close.1 .context s.close.2
    exact ⟨hread.readers.trans (Nat.succ_le_succ hclose.readers), hread.nextId.trans hclose.nextId⟩

theorem writeHead_within (max : Nat) : Within 0 s (s.writeHead max w) := by
  rw [writeHead]
  split
  · exact ⟨le_rfl, rfl⟩
  · split
    · rw [writeWait]
      split
      · exact ⟨le_rfl, rfl⟩
      · split <;> exact ⟨le_rfl, rfl⟩
    · exact ⟨le_rfl, rfl⟩

theorem writeWoken_within (max : Nat) (notified : Bool) :
    Within 0 s (s.writeWoken max w notified) := by
  rw [writeWoken]
  split
  · split
    · exact ⟨le_rfl, rfl⟩
    · split
      · exact ⟨le_rfl, rfl⟩
      · exact s.writeHead_within w max
  · exact ⟨s.close_within.readers, s.close_within.nextId⟩

end State

theorem Effect.card_writers_le {max : Nat} {c d : Core} (h : Effect max c d) :
    d.writers.card ≤ c.writers.card + 1 ∧
      (d.nextId = c.nextId → d.writers.card ≤ c.writers.card) := by
  cases h with
  | idle | deliver m | fail err hclosed => exact ⟨Nat.le_succ _, fun _ ↦ le_rfl⟩
  | begin b =>
      rw [Multiset.card_cons]
      exact ⟨le_rfl, fun h ↦ absurd h (Nat.succ_ne_self _)⟩
  | refuse b err => exact ⟨Nat.le_succ _, fun h ↦ absurd h (Nat.succ_ne_self _)⟩
  | append w ws m hw hm hspace =>
      rw [hw, Multiset.card_cons, Multiset.card_cons]
      exact ⟨Nat.le_succ _, fun _ ↦ le_rfl⟩
  | finish w ws err hw =>
      rw [hw, Multiset.card_cons]
      exact ⟨(Nat.le_succ _).trans (Nat.le_succ _), fun _ ↦ Nat.le_succ _⟩

/-! ## Runs -/

/-- A `Read` starts only when none is under way, and a `Write` likewise. -/
def Solo (s : State) : Event → Prop
  | .read _ => s.readers = 0
  | .write _ => s.writers = 0
  | _ => True

structure Attended (max : Nat) (s : State) : Prop where
  watched : Watched max (s.view s.sends)
  readers : s.readers ≤ 1
  writers : s.writers.card ≤ 1

variable {max : Nat} {s t : State} {e : Event}

theorem attended_init (now : Time) : Attended max (.init now) where
  watched := ⟨Cond.sound_new, Cond.sound_new, fun h ↦ absurd rfl h, fun h ↦ absurd rfl h⟩
  readers := Nat.zero_le 1
  writers := Nat.zero_le 1

theorem Attended.rMembers (h : Attended max s) : s.rTrigger.members.card ≤ 1 :=
  (Nat.le_add_left _ _).trans h.readers

theorem Attended.wMembers (h : Attended max s) : s.wTrigger.members.card ≤ 1 := by
  have hsub : s.wTrigger.members ≤ s.writers := by
    rw [State.writers]
    split
    · exact (Multiset.le_add_left _ _).trans (Multiset.le_cons_self _ _)
    · exact Multiset.le_add_left _ _
  exact (Multiset.card_le_card hsub).trans h.writers

theorem Attended.unlocked (h : Attended max s) (hlock : s.lock.isNone = true) :
    Watched max (s.view []) := by
  have hsends : s.sends = [] := by rw [State.sends, Option.isNone_iff_eq_none.mp hlock]
  exact hsends ▸ h.watched

theorem Attended.of_within (h : Attended max s) (hstep : step max s e = some t)
    (hwithin : State.Within 0 s t) (hwatched : Watched max (t.view t.sends)) : Attended max t where
  watched := hwatched
  readers := hwithin.readers.trans h.readers
  writers := ((step_effect hstep).card_writers_le.2 hwithin.nextId).trans h.writers

theorem readLock_attended {len : ReadCall} (h : Attended max s)
    (hstep : step max s (.readLock len) = some t) : Attended max t := by
  cases step_taken hstep with
  | readLock hlock hmem =>
      have hwithin := State.readHead_within { s with reading := s.reading.erase len } len
      -- the call leaves `reading` before it may register again
      have hlength := List.length_erase_add_one hmem
      have hreaders := hwithin.readers
      change _ ≤ (s.reading.erase len).length + s.rTrigger.members.card + 1 at hreaders
      refine h.of_within hstep ⟨hreaders.trans ?_, hwithin.nextId⟩ ?_
      · rw [State.readers]
        omega
      · exact State.readHead_watched len (s := { s with reading := s.reading.erase len })
          (h.unlocked hlock)

theorem rRelock_attended {len : ReadCall} {notified : Bool} (h : Attended max s)
    (hstep : step max s (.rRelock len notified) = some t) : Attended max t := by
  cases step_taken hstep with
  | @rRelock _ _ c hlock hc =>
      have hunlocked := h.unlocked hlock
      have hwithin := State.readWoken_within { s with rTrigger := c } len notified
      have hwatched : Watched max (State.view { s with rTrigger := c } []) := by
        obtain ⟨hpending, htoken⟩ := Cond.relock_pending hc
        refine ⟨Cond.Sound.relock hunlocked.rSound hc, hunlocked.wSound, ?_, hunlocked.writer⟩
        change c.pending ≠ [] → _ → c.token = true ∨ _
        rw [hpending, htoken]
        exact hunlocked.reader
      have hmembers := congrArg Multiset.card (Cond.members_relock hc)
      rw [Multiset.card_cons] at hmembers
      have hreaders := hwithin.readers
      change _ ≤ s.reading.length + c.members.card + 1 at hreaders
      refine h.of_within hstep ⟨hreaders.trans ?_, hwithin.nextId⟩ ?_
      · rw [State.readers]
        omega
      · exact State.readWoken_watched len hwatched notified

theorem wRelock_attended {w : WriteCall} {notified : Bool} (h : Attended max s)
    (hstep : step max s (.wRelock w notified) = some t) : Attended max t := by
  cases step_taken hstep with
  | @wRelock _ _ c hlock hc =>
      have hunlocked := h.unlocked hlock
      have hwithin := State.writeWoken_within { s with wTrigger := c } w max notified
      have hwatched : Watched max (State.view { s with wTrigger := c } []) := by
        obtain ⟨hpending, htoken⟩ := Cond.relock_pending hc
        refine ⟨hunlocked.rSound, Cond.Sound.relock hunlocked.wSound hc, hunlocked.reader, ?_⟩
        change c.pending ≠ [] → _ → c.token = true ∨ _
        rw [hpending, htoken]
        exact hunlocked.writer
      exact h.of_within hstep ⟨hwithin.readers, hwithin.nextId⟩
        (State.writeWoken_watched w hwatched notified)

/-- A send to the only waiter leaves a notification, unless the waiter has received it. -/
theorem send_attended (h : Attended max s) (hstep : step max s .send = some t) :
    Attended max t := by
  have hwatched := h.watched
  rw [State.sends] at hwatched
  cases step_taken hstep with
  | rSend hlock =>
      rw [hlock] at hwatched
      refine h.of_within hstep ⟨?_, rfl⟩ ⟨hwatched.rSound.signal, hwatched.wSound, ?_, ?_⟩
      · rw [State.readers, Cond.members_signal]
        rfl
      · intro hpending _
        exact .inl (hwatched.rSound.signal_token h.rMembers hpending)
      · intro hpending hready
        refine (hwatched.writer hpending hready).imp id fun hmem ↦ ?_
        exact (List.mem_cons.mp hmem).resolve_left (by decide)
  | wSend hlock =>
      rw [hlock] at hwatched
      refine h.of_within hstep ⟨le_rfl, rfl⟩ ⟨hwatched.rSound, hwatched.wSound.signal, ?_, ?_⟩
      · intro hpending hready
        refine (hwatched.reader hpending hready).imp id fun hmem ↦ ?_
        exact (List.mem_cons.mp hmem).resolve_left (by decide)
      · intro hpending _
        exact .inl (hwatched.wSound.signal_token h.wMembers hpending)

/-- A `Read` goes on inside `Wait`. -/
theorem rTrigger_attended {c : Cond ReadCall} (h : Attended max s)
    (hstep : step max s e = some { s with rTrigger := c }) (hsound : c.Sound)
    (hmembers : c.members = s.rTrigger.members)
    (hpending : c.pending ≠ [] → s.rTrigger.pending ≠ [] ∧ c.token = s.rTrigger.token) :
    Attended max { s with rTrigger := c } := by
  refine h.of_within hstep ⟨?_, rfl⟩ ⟨hsound, h.watched.wSound, fun hne hready ↦ ?_,
    h.watched.writer⟩
  · rw [State.readers, hmembers]
    rfl
  · obtain ⟨hold, htoken⟩ := hpending hne
    change c.token = true ∨ _
    rw [htoken]
    exact h.watched.reader hold hready

/-- A `Write` goes on inside `Wait`. -/
theorem wTrigger_attended {c : Cond WriteCall} (h : Attended max s)
    (hstep : step max s e = some { s with wTrigger := c }) (hsound : c.Sound)
    (hpending : c.pending ≠ [] → s.wTrigger.pending ≠ [] ∧ c.token = s.wTrigger.token) :
    Attended max { s with wTrigger := c } := by
  refine h.of_within hstep ⟨le_rfl, rfl⟩ ⟨h.watched.rSound, hsound, h.watched.reader,
    fun hne hready ↦ ?_⟩
  obtain ⟨hold, htoken⟩ := hpending hne
  change c.token = true ∨ _
  rw [htoken]
  exact h.watched.writer hold hready

theorem step_attended (h : Attended max s) (hsolo : Solo s e) (hstep : step max s e = some t) :
    Attended max t := by
  cases step_taken hstep with
  | tick | cancel | readLate | writeRefused | writeTest =>
      exact h.of_within hstep ⟨le_rfl, rfl⟩ h.watched
  | read =>
      refine ⟨h.watched, ?_, h.writers⟩
      change s.reading.length + s.rTrigger.members.card = 0 at hsolo
      change s.reading.length + 1 + s.rTrigger.members.card ≤ 1
      omega
  | readLock => exact readLock_attended h hstep
  | writeLate | write =>
      have hwriters := (step_effect hstep).card_writers_le.1
      change _ ≤ s.writers.card + 1 at hwriters
      change s.writers = 0 at hsolo
      -- the call that starts is the only one
      rw [hsolo] at hwriters
      exact ⟨h.watched, h.readers, hwriters⟩
  | @writeLock w hlock hmem =>
      have hwithin := State.writeHead_within { s with writing := s.writing.erase w } w max
      refine h.of_within hstep ⟨hwithin.readers, hwithin.nextId⟩ ?_
      exact State.writeHead_watched w (s := { s with writing := s.writing.erase w })
        (h.unlocked hlock)
  | close hlock =>
      exact h.of_within hstep ⟨s.close_within.readers, s.close_within.nextId⟩
        (State.close_watched (h.unlocked hlock))
  | @setDeadline time which hlock =>
      have hwatched := (h.unlocked hlock).more
      cases which <;> exact h.of_within hstep ⟨le_rfl, rfl⟩ (hwatched _)
  | rTake hc =>
      -- the one `Read` has its notification, and nobody else waits for one
      exact rTrigger_attended h hstep (h.watched.rSound.take hc) (Cond.members_take hc)
        fun hne ↦ absurd (Cond.take_pending h.rMembers hc) hne
  | rPark hc =>
      exact rTrigger_attended h hstep (h.watched.rSound.park hc) (Cond.members_park hc)
        fun _ ↦ Cond.park_pending hc
  | rCancel hc =>
      exact rTrigger_attended h hstep (h.watched.rSound.cancel hc) (Cond.members_cancel hc)
        fun hne ↦ absurd (Cond.cancel_pending h.rMembers hc) hne
  | rRelock => exact rRelock_attended h hstep
  | wTake hc =>
      exact wTrigger_attended h hstep (h.watched.wSound.take hc)
        fun hne ↦ absurd (Cond.take_pending h.wMembers hc) hne
  | wPark hc =>
      exact wTrigger_attended h hstep (h.watched.wSound.park hc) fun _ ↦ Cond.park_pending hc
  | wCancel hc =>
      exact wTrigger_attended h hstep (h.watched.wSound.cancel hc)
        fun hne ↦ absurd (Cond.cancel_pending h.wMembers hc) hne
  | wRelock => exact wRelock_attended h hstep
  | rSend | wSend => exact send_attended h hstep
  | @resume w hlock =>
      have hwatched := h.watched
      rw [State.sends, hlock] at hwatched
      have hwithin := State.writeHead_within { s with lock := none } w max
      refine h.of_within hstep ⟨hwithin.readers, hwithin.nextId⟩ ?_
      exact State.writeHead_watched w (s := { s with lock := none }) hwatched
  | unlock hlock =>
      have hwatched := h.watched
      rw [State.sends, hlock] at hwatched
      exact h.of_within hstep ⟨le_rfl, rfl⟩ hwatched

/-! ## No lost wake-up -/

/-- Whoever waits for something that is there has a notification in the channel, or is about to be
sent one by the holder of the lock; so apart from a broadcast under way nobody blocks without
reason. -/
structure Awake (max : Nat) (s : State) : Prop where
  reader : s.rTrigger.pending ≠ [] → s.buffer ≠ [] ∨ s.closed = true →
    s.rTrigger.token = true ∨ .read ∈ s.sends
  writer : s.wTrigger.pending ≠ [] → s.buffer.length < max ∨ s.closed = true →
    s.wTrigger.token = true ∨ .write ∈ s.sends
  readBlocked : s.sends = [] → s.rTrigger.parked ≠ [] → s.buffer = [] ∧ s.closed = false
  writeBlocked : s.sends = [] → s.wTrigger.parked ≠ [] →
    max ≤ s.buffer.length ∧ s.closed = false

theorem Attended.awake (h : Attended max s) : Awake max s where
  reader := h.watched.reader
  writer := h.watched.writer
  readBlocked hsends hparked := by
    by_contra hready
    rw [not_and_or, Bool.not_eq_false] at hready
    apply hparked
    apply h.watched.rSound.not_parked
    intro hpending
    -- the lock holder has no send left, so that the notification is in the channel
    refine (h.watched.reader hpending hready).resolve_right ?_
    change Side.read ∉ s.sends
    rw [hsends]
    exact List.not_mem_nil
  writeBlocked hsends hparked := by
    by_contra hready
    rw [not_and_or, Nat.not_le, Bool.not_eq_false] at hready
    apply hparked
    apply h.watched.wSound.not_parked
    intro hpending
    refine (h.watched.writer hpending hready).resolve_right ?_
    change Side.write ∉ s.sends
    rw [hsends]
    exact List.not_mem_nil

/-- No wake-up is lost in a run with at most one `Read` and one `Write` at a time, whatever the
deadlines, the context and the calls of `Close`. -/
theorem awake_of_solo (max : Nat) (now : Time) (events : List Event)
    (h : EveryStep (step max) Solo events (.init now)) :
    EveryState (step max) (Awake max) events (.init now) :=
  (h.everyState (fun _ _ _ hinv hsolo hstep ↦ step_attended hinv hsolo hstep)
    (attended_init now)).imp fun _ hinv ↦ hinv.awake

/-- A `Read` blocks on an empty pipe, a `Write` wakes it, and the `Read` returns the bytes. -/
theorem awake_blockedRead :
    EveryState (step 16384) (Awake 16384)
      [.read 4, .readLock 4, .rPark 4, .write [1, 2], .writeTest ⟨0, [1, 2], [1, 2], 0⟩,
        .writeLock ⟨0, [1, 2], [1, 2], 0⟩, .send, .resume, .unlock, .rRelock 4 true, .unlock]
      (.init 1) := by
  apply awake_of_solo
  refine .cons rfl rfl (.cons rfl trivial (.cons rfl trivial (.cons rfl rfl ?_)))
  refine .cons rfl trivial (.cons rfl trivial (.cons rfl trivial (.cons rfl trivial ?_)))
  exact .cons rfl trivial (.cons rfl trivial (.cons rfl trivial trivial))

end CommonLib.XPipe
