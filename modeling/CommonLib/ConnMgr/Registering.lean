import CommonLib.ConnMgr.Manager

/-!
# A `Register` on its own

The loop of `Register` draws ids until it meets a free one.  The counter comes round to every id of
its range, so a free id is found within one turn; without one the loop has no end.  Only where the
range ends with the largest word does the counter leave it, since no word is above the maximum.
-/

namespace CommonLib.ConnMgr

open CommonLib.Reasoning

/-! ## The ids in their turn -/

namespace IdType

/-- The counter after a `shift`. -/
def next (i : IdType) : IdType := i.shift.2

/-- The counter of `newId(min, max)` after that many calls. -/
def after (min max : Int64) : Nat → IdType
  | 0 => newId min max
  | n + 1 => (after min max n).next

/-- The id that comes after `k` others. -/
def drawn (i : IdType) (k : Nat) : Int64 := (next^[k] i).current

/-- The place of an id in cyclic order: how often the current one, a 64-bit word, is to be
incremented to give it. -/
def turn (i : IdType) (id : Int64) : Nat := ((id.toInt - i.current.toInt) % 2 ^ 64).toNat

/-- The number of ids in the range. -/
def size (i : IdType) : Nat := (i.max.toInt - i.min.toInt + 1).toNat

structure InRange (i : IdType) : Prop where
  min_le : i.min ≤ i.current
  le_max : i.current ≤ i.max

variable {i : IdType}

@[simp] theorem next_min : i.next.min = i.min := rfl

@[simp] theorem next_max : i.next.max = i.max := rfl

theorem next_current : i.next.current = if i.current + 1 > i.max then i.min else i.current + 1 :=
  rfl

theorem iterate_min (k : Nat) : (next^[k] i).min = i.min := by
  induction k with
  | zero => rfl
  | succ k ih => rw [Function.iterate_succ_apply', next_min, ih]

theorem iterate_max (k : Nat) : (next^[k] i).max = i.max := by
  induction k with
  | zero => rfl
  | succ k ih => rw [Function.iterate_succ_apply', next_max, ih]

theorem drawn_zero : i.drawn 0 = i.current := rfl

theorem drawn_succ (k : Nat) :
    i.drawn (k + 1) = if i.drawn k + 1 > i.max then i.min else i.drawn k + 1 := by
  rw [drawn, Function.iterate_succ_apply', next_current, iterate_min, iterate_max]
  rfl

theorem turn_eq (id : Int64) : (i.turn id : Int) = (id.toInt - i.current.toInt) % 2 ^ 64 :=
  Int.toNat_of_nonneg (Int.emod_nonneg _ (by decide))

theorem turn_lt (id : Int64) : i.turn id < 2 ^ 64 := by
  have hturn := i.turn_eq id
  omega

theorem size_le : i.size ≤ 2 ^ 64 := by
  have hmin := i.min.le_toInt
  have hmax := i.max.toInt_lt
  rw [size]
  omega

/-! ### A range that ends before the largest word -/

section Within

variable (hmax : i.max ≠ Int64.maxValue)
include hmax

theorem max_toInt_lt : i.max.toInt < 2 ^ 63 - 1 := by
  have hle := i.max.toInt_lt
  have hne : i.max.toInt ≠ 2 ^ 63 - 1 := fun heq ↦
    hmax (Int64.toInt_inj.mp (heq.trans Int64.toInt_maxValue.symm))
  omega

/-- The counter starts over after the maximum. -/
theorem drawn_succ_toInt {k : Nat} (hle : i.drawn k ≤ i.max) :
    (i.drawn (k + 1)).toInt =
      if (i.drawn k).toInt = i.max.toInt then i.min.toInt else (i.drawn k).toInt + 1 := by
  have hend := max_toInt_lt hmax
  rw [Int64.le_iff_toInt_le] at hle
  have hsucc := toInt_succ (x := i.drawn k) (by omega)
  rw [drawn_succ]
  split
  next habove =>
    rw [gt_iff_lt, Int64.lt_iff_toInt_lt] at habove
    rw [if_pos (by omega)]
  next hbelow =>
    rw [gt_iff_lt, Int64.lt_iff_toInt_lt] at hbelow
    rw [if_neg (by omega), hsucc]

theorem drawn_mem (h : i.InRange) (k : Nat) : i.min ≤ i.drawn k ∧ i.drawn k ≤ i.max := by
  induction k with
  | zero => exact ⟨h.min_le, h.le_max⟩
  | succ k ih =>
      obtain ⟨hlow, hhigh⟩ := ih
      have hstep := drawn_succ_toInt hmax hhigh
      rw [Int64.le_iff_toInt_le] at hlow hhigh
      rw [Int64.le_iff_toInt_le, Int64.le_iff_toInt_le, hstep]
      split <;> constructor <;> omega

/-- In one turn the ids come up to the maximum, and then from the minimum on. -/
theorem drawn_toInt (h : i.InRange) {k : Nat} (hk : k < i.size) :
    (i.drawn k).toInt =
      if i.current.toInt + k ≤ i.max.toInt then i.current.toInt + k
      else i.current.toInt + k - i.size := by
  have hlow := Int64.le_iff_toInt_le.mp h.min_le
  have hhigh := Int64.le_iff_toInt_le.mp h.le_max
  induction k with
  | zero =>
      rw [if_pos (by omega)]
      exact (add_zero _).symm
  | succ k ih =>
      rw [drawn_succ_toInt hmax (drawn_mem hmax h k).2, ih (by omega)]
      rw [size] at hk ⊢
      push_cast
      split_ifs <;> omega

/-- Every id of the range has its turn. -/
theorem exists_drawn (h : i.InRange) {id : Int64} (hmin : i.min ≤ id) (hle : id ≤ i.max) :
    ∃ k < i.size, i.drawn k = id := by
  have hlow := Int64.le_iff_toInt_le.mp h.min_le
  have hhigh := Int64.le_iff_toInt_le.mp h.le_max
  rw [Int64.le_iff_toInt_le] at hmin hle
  by_cases hahead : i.current.toInt ≤ id.toInt
  · have hk : (id.toInt - i.current.toInt).toNat < i.size := by
      rw [size]
      omega
    refine ⟨_, hk, Int64.toInt_inj.mp ?_⟩
    rw [drawn_toInt hmax h hk, if_pos (by omega)]
    omega
  · have hk : (id.toInt - i.current.toInt + i.size).toNat < i.size := by
      rw [size]
      omega
    refine ⟨_, hk, Int64.toInt_inj.mp ?_⟩
    rw [drawn_toInt hmax h hk, if_neg (by rw [size]; omega), size]
    omega

theorem turn_drawn_mono (h : i.InRange) {j k : Nat} (hjk : j ≤ k) (hk : k < i.size) :
    i.turn (i.drawn j) ≤ i.turn (i.drawn k) := by
  have hsize := i.size_le
  have hj := i.turn_eq (i.drawn j)
  have hk' := i.turn_eq (i.drawn k)
  rw [drawn_toInt hmax h (hjk.trans_lt hk)] at hj
  rw [drawn_toInt hmax h hk] at hk'
  split_ifs at hj hk' <;> omega

theorem inRange_next (h : i.InRange) : i.next.InRange := by
  obtain ⟨hlow, hhigh⟩ := drawn_mem hmax h 1
  exact ⟨hlow, hhigh⟩

end Within

/-! ### A range that ends with the largest word -/

section Wrapping

variable (hmax : i.max = Int64.maxValue)
include hmax

/-- Nothing is above the maximum, and the increment wraps. -/
theorem drawn_succ_of_wraps (k : Nat) : i.drawn (k + 1) = i.drawn k + 1 := by
  rw [drawn_succ, hmax, if_neg]
  exact Int64.not_lt.mpr (Int64.le_maxValue _)

theorem drawn_emod (k : Nat) : (i.drawn k).toInt % 2 ^ 64 = (i.current.toInt + k) % 2 ^ 64 := by
  induction k with
  | zero => rw [drawn_zero, Nat.cast_zero, add_zero]
  | succ k ih =>
      have hsucc : (i.drawn k + 1).toInt % 2 ^ 64 = ((i.drawn k).toInt + 1) % 2 ^ 64 := by
        rw [Int64.toInt_add, Int64.toInt_one]
        exact Int.bmod_emod
      rw [drawn_succ_of_wraps hmax, hsucc]
      push_cast
      omega

theorem turn_drawn {k : Nat} (hk : k < 2 ^ 64) : i.turn (i.drawn k) = k := by
  have hturn := i.turn_eq (i.drawn k)
  have hdrawn := drawn_emod hmax k
  omega

theorem drawn_turn (id : Int64) : i.drawn (i.turn id) = id := by
  have hturn := i.turn_eq id
  have hdrawn := drawn_emod hmax (i.turn id)
  have hlow := id.le_toInt
  have hhigh := id.toInt_lt
  have hlow' := (i.drawn (i.turn id)).le_toInt
  have hhigh' := (i.drawn (i.turn id)).toInt_lt
  apply Int64.toInt_inj.mp
  omega

end Wrapping

theorem after_min (min max : Int64) (n : Nat) : (after min max n).min = min := by
  induction n with
  | zero => rfl
  | succ n ih => exact ih

theorem after_max (min max : Int64) (n : Nat) : (after min max n).max = max := by
  induction n with
  | zero => rfl
  | succ n ih => exact ih

theorem inRange_after {min max : Int64} (hmax : max ≠ Int64.maxValue) (h : min ≤ max) (n : Nat) :
    (after min max n).InRange := by
  induction n with
  | zero => exact ⟨Int64.le_refl _, h⟩
  | succ n ih => exact inRange_next (by rwa [after_max]) ih

end IdType

/-! ## The loop -/

variable {C : Type}

namespace Instance

/-- The loop of `Register`, for that many probes of the map it has loaded. -/
def registerLoop (map : MapRef) (c : C) : Nat → Instance C → Option (Except ConnError Int64 × Instance C)
  | 0, _ => none
  | probes + 1, m =>
      let (id, counter) := m.id.shift
      match (m.maps map).lookup id with
      | some _ => registerLoop map c probes { m with id := counter }
      | none => some (.ok id, { m with id := counter }.setMap map ((m.maps map).insert id c))

def register (m : Instance C) (c : C) (probes : Nat) : Option (Except ConnError Int64 × Instance C) :=
  registerLoop m.pmap c probes m

/-- The id is free in the map. -/
def Free (m : Instance C) (map : MapRef) (id : Int64) : Prop := (m.maps map).lookup id = none

instance (m : Instance C) (map : MapRef) (id : Int64) : Decidable (m.Free map id) :=
  inferInstanceAs (Decidable (_ = none))

/-- What the loop leaves behind: the connection under its id, and the counter past it. -/
def stored (m : Instance C) (map : MapRef) (c : C) (id : Int64) (counter : IdType) : Instance C :=
  { m with id := counter }.setMap map ((m.maps map).insert id c)

variable {m : Instance C} {map : MapRef} {c : C}

theorem registerLoop_free (h : m.Free map m.id.current) (probes : Nat) :
    registerLoop map c (probes + 1) m =
      some (.ok m.id.current, m.stored map c m.id.current m.id.next) := by
  rw [Free] at h
  simp only [registerLoop, IdType.shift, h]
  rfl

theorem registerLoop_busy (h : ¬ m.Free map m.id.current) (probes : Nat) :
    registerLoop map c (probes + 1) m = registerLoop map c probes { m with id := m.id.next } := by
  obtain ⟨conn, hconn⟩ := Option.ne_none_iff_exists'.mp h
  simp only [registerLoop, IdType.shift, hconn]
  rfl

/-- Where the id after `k` others is the first free one, `k + 1` probes are enough. -/
theorem registerLoop_first {k probes : Nat} (hk : k < probes)
    (hfree : m.Free map (m.id.drawn k)) (hbusy : ∀ j < k, ¬ m.Free map (m.id.drawn j)) :
    registerLoop map c probes m =
      some (.ok (m.id.drawn k), m.stored map c (m.id.drawn k) (IdType.next^[k + 1] m.id)) := by
  induction k generalizing m probes with
  | zero =>
      obtain ⟨probes, rfl⟩ := Nat.exists_eq_succ_of_ne_zero hk.ne'
      exact registerLoop_free hfree probes
  | succ k ih =>
      obtain ⟨probes, rfl⟩ := Nat.exists_eq_succ_of_ne_zero (Nat.ne_zero_of_lt hk)
      rw [registerLoop_busy (hbusy 0 (Nat.succ_pos k)), Function.iterate_succ_apply]
      exact ih (m := { m with id := m.id.next }) (Nat.lt_of_succ_lt_succ hk) hfree
        fun j hj ↦ hbusy (j + 1) (Nat.succ_lt_succ hj)

/-- While the ids that come are registered, the loop goes on. -/
theorem registerLoop_spins {probes : Nat} (hbusy : ∀ j < probes, ¬ m.Free map (m.id.drawn j)) :
    registerLoop map c probes m = none := by
  induction probes generalizing m with
  | zero => rfl
  | succ probes ih =>
      rw [registerLoop_busy (hbusy 0 (Nat.succ_pos probes))]
      exact ih (m := { m with id := m.id.next }) fun j hj ↦ hbusy (j + 1) (Nat.succ_lt_succ hj)

/-- The least number of ids after which a free one comes. -/
def FirstDrawn (m : Instance C) (k : Nat) : Prop :=
  m.Free m.pmap (m.id.drawn k) ∧ ∀ j < k, ¬ m.Free m.pmap (m.id.drawn j)

theorem exists_firstDrawn {k : Nat} (hfree : m.Free m.pmap (m.id.drawn k)) :
    ∃ k' ≤ k, m.FirstDrawn k' := by
  have hexists : ∃ k, m.Free m.pmap (m.id.drawn k) := ⟨k, hfree⟩
  exact ⟨Nat.find hexists, Nat.find_min' hexists hfree, Nat.find_spec hexists,
    fun j hj ↦ Nat.find_min hexists hj⟩

theorem FirstDrawn.register {k probes : Nat} (h : m.FirstDrawn k) (hk : k < probes) :
    m.register c probes =
      some (.ok (m.id.drawn k), m.stored m.pmap c (m.id.drawn k) (IdType.next^[k + 1] m.id)) :=
  registerLoop_first hk h.1 h.2

theorem firstDrawn_of_register {probes : Nat} {reply : Except ConnError Int64} {t : Instance C}
    (h : m.register c probes = some (reply, t)) :
    ∃ k < probes, m.FirstDrawn k ∧ reply = .ok (m.id.drawn k) := by
  by_cases hexists : ∃ k < probes, m.Free m.pmap (m.id.drawn k)
  · obtain ⟨k, hk, hfree⟩ := hexists
    obtain ⟨k', hle, hfirst⟩ := exists_firstDrawn hfree
    rw [hfirst.register (hle.trans_lt hk)] at h
    cases h
    exact ⟨k', hle.trans_lt hk, hfirst, rfl⟩
  · have hnone : m.register c probes = none :=
      registerLoop_spins fun j hj hfree ↦ hexists ⟨j, hj, hfree⟩
    rw [hnone] at h
    cases h

/-! ## What a call does -/

/-- The first free id of the range, in cyclic order from the counter on. -/
structure FirstFree (m : Instance C) (id : Int64) : Prop where
  min_le : m.id.min ≤ id
  le_max : id ≤ m.id.max
  free : m.Free m.pmap id
  first : ∀ other, m.id.min ≤ other → other ≤ m.id.max → m.Free m.pmap other →
    m.id.turn id ≤ m.id.turn other

/-- Within one turn `Register` returns, with the connection under the first free id in cyclic order,
or with an error if every id is registered. -/
def Registers (m : Instance C) (c : C) : Prop :=
  ∃ reply t, m.register c m.id.size = some (reply, t) ∧
    ((∃ id, m.FirstFree id ∧ reply = .ok id ∧ t.pmap = m.pmap ∧
        t.maps = Function.update m.maps m.pmap ((m.maps m.pmap).insert id c)) ∨
      ((∀ id, m.id.min ≤ id → id ≤ m.id.max → ¬ m.Free m.pmap id) ∧
        reply = .error .outOfResources ∧ t.pmap = m.pmap ∧ t.maps = m.maps))

theorem FirstDrawn.registers {k : Nat} (h : m.FirstDrawn k) (hk : k < m.id.size)
    (hfirst : m.FirstFree (m.id.drawn k)) : m.Registers c :=
  ⟨_, _, h.register hk, .inl ⟨_, hfirst, rfl, rfl, rfl⟩⟩

/-- A call that does its work has drawn the id it returns. -/
theorem Registers.firstDrawn (h : m.Registers c) :
    ∃ k < m.id.size, m.FirstDrawn k ∧ m.FirstFree (m.id.drawn k) := by
  obtain ⟨reply, t, hreturns, hreply⟩ := h
  obtain ⟨k, hk, hdrawn, rfl⟩ := firstDrawn_of_register hreturns
  obtain ⟨id, hfirst, heq, -⟩ | ⟨-, heq, -⟩ := hreply
  · cases heq
    exact ⟨k, hk, hdrawn, hfirst⟩
  · cases heq

theorem register_never (hmax : m.id.max ≠ Int64.maxValue) (hid : m.id.InRange)
    (hfull : ∀ id, m.id.min ≤ id → id ≤ m.id.max → ¬ m.Free m.pmap id) (probes : Nat) :
    m.register c probes = none := by
  refine registerLoop_spins fun j _ ↦ ?_
  obtain ⟨hlow, hhigh⟩ := IdType.drawn_mem hmax hid j
  exact hfull _ hlow hhigh

theorem registers_of_free (hmax : m.id.max ≠ Int64.maxValue) (hid : m.id.InRange) {id : Int64}
    (hlow : m.id.min ≤ id) (hhigh : id ≤ m.id.max) (hfree : m.Free m.pmap id) :
    m.Registers c := by
  obtain ⟨k, hk, rfl⟩ := IdType.exists_drawn hmax hid hlow hhigh
  obtain ⟨k', hle, hdrawn⟩ := exists_firstDrawn hfree
  obtain ⟨hmin', hmax'⟩ := IdType.drawn_mem hmax hid k'
  refine hdrawn.registers (hle.trans_lt hk) ⟨hmin', hmax', hdrawn.1, fun other ho ho' hfree' ↦ ?_⟩
  -- any other free id of the range is drawn later in the same turn
  obtain ⟨j, hj, rfl⟩ := IdType.exists_drawn hmax hid ho ho'
  exact IdType.turn_drawn_mono hmax hid (not_lt.mp fun hlt ↦ hdrawn.2 j hlt hfree') hj

/-- Where the counter wraps, it passes through the words below the range before it starts over. -/
theorem registers_wrapping_iff (hmax : m.id.max = Int64.maxValue) :
    m.Registers c ↔ ∃ id, m.id.min ≤ id ∧ m.Free m.pmap id ∧ m.id.turn id < m.id.size ∧
      ∀ other < m.id.min, m.Free m.pmap other → m.id.turn id < m.id.turn other := by
  have hlater {k : Nat} {other : Int64} (h : m.FirstDrawn k) (hfree : m.Free m.pmap other) :
      k ≤ m.id.turn other := by
    by_contra! hlt
    exact h.2 _ hlt ((IdType.drawn_turn hmax other).symm ▸ hfree)
  constructor
  · intro h
    obtain ⟨k, hk, hdrawn, hfirst⟩ := h.firstDrawn
    have hturn := IdType.turn_drawn hmax (hk.trans_le IdType.size_le)
    refine ⟨_, hfirst.min_le, hdrawn.1, hturn.symm ▸ hk, fun other hother hfree ↦ ?_⟩
    rw [hturn]
    refine lt_of_le_of_ne (hlater hdrawn hfree) ?_
    rintro rfl
    rw [IdType.drawn_turn hmax] at hfirst
    exact Int64.not_lt.mpr hfirst.min_le hother
  · rintro ⟨id, hmin, hfree, hsize, hbelow⟩
    have hdrawn := IdType.drawn_turn hmax id
    obtain ⟨k, hle, hfirst⟩ := exists_firstDrawn (hdrawn.symm ▸ hfree)
    have hturn := IdType.turn_drawn hmax (hle.trans_lt (IdType.turn_lt id))
    refine hfirst.registers (hle.trans_lt hsize) ⟨?_, ?_, hfirst.1, fun other _ _ hfree' ↦ ?_⟩
    · refine Int64.not_lt.mp fun hlt ↦ ?_
      have hbefore := hbelow _ hlt hfirst.1
      omega
    · exact hmax ▸ Int64.le_maxValue _
    · rw [hturn]
      exact hlater hfirst hfree'

/-- `Register` does its work exactly if there is a free id in the range; and where the range ends
with the largest word, if the counter comes to such an id within one turn and before it comes to a
free word below the range. -/
theorem registers_iff_free (m : Instance C) (c : C) (min max : Int64) (n : Nat)
    (hid : m.id = IdType.after min max n) :
    m.Registers c ↔ ∃ id, min ≤ id ∧ id ≤ max ∧ m.Free m.pmap id ∧
      (max = Int64.maxValue → m.id.turn id < m.id.size ∧
        ∀ other < min, m.Free m.pmap other → m.id.turn id < m.id.turn other) := by
  obtain rfl : m.id.min = min := by rw [hid, IdType.after_min]
  obtain rfl : m.id.max = max := by rw [hid, IdType.after_max]
  by_cases hmax : m.id.max = Int64.maxValue
  · rw [registers_wrapping_iff hmax]
    refine exists_congr fun id ↦ and_congr_right fun _ ↦ ?_
    simp only [hmax, Int64.le_maxValue, true_and, forall_const]
  · constructor
    · intro h
      obtain ⟨k, -, -, hfirst⟩ := h.firstDrawn
      exact ⟨_, hfirst.min_le, hfirst.le_max, hfirst.free, fun heq ↦ absurd heq hmax⟩
    · rintro ⟨id, hlow, hhigh, hfree, -⟩
      have hrange : m.id.InRange := by
        rw [hid]
        exact IdType.inRange_after hmax (Int64.le_trans hlow hhigh) n
      exact registers_of_free hmax hrange hlow hhigh hfree

/-- One connection in a range of two ids. -/
theorem registers_second :
    (⟨0, fun _ ↦ (∅ : GoMap Int64 Nat).insert 1 7, 1, IdType.after 1 2 2⟩ : Instance Nat).Registers 8 :=
  (registers_iff_free _ 8 1 2 2 rfl).mpr
    ⟨2, by decide, by decide, rfl, fun hmax ↦ absurd hmax (by decide)⟩

-- The largest word is taken, the one before it is free: the increment leaves the range.
example :
    let m : Instance Nat := ⟨0, fun _ ↦ (∅ : GoMap Int64 Nat).insert Int64.maxValue 7, 1,
      IdType.after (Int64.maxValue - 1) Int64.maxValue 1⟩
    (m.register 8 2).map Prod.fst = some (.ok Int64.minValue) := rfl

/-- One connection in a range of one id: the next `Register` goes round for ever. -/
theorem register_full_spins :
    let m : Instance Nat := ⟨0, fun _ ↦ (∅ : GoMap Int64 Nat).insert 1 7, 1, IdType.after 1 1 1⟩
    ¬ m.Registers 8 ∧ ∀ probes, m.register 8 probes = none := by
  intro m
  have hfull : ∀ id, 1 ≤ id → id ≤ 1 → ¬ m.Free m.pmap id := by
    intro id hlo hhi
    obtain rfl : id = 1 := Int64.le_antisymm hhi hlo
    decide
  have hmax : m.id.max ≠ Int64.maxValue := by decide
  have hnever : ∀ probes, m.register 8 probes = none :=
    register_never hmax (IdType.inRange_after hmax (Int64.le_refl 1) 1) hfull
  refine ⟨?_, hnever⟩
  rintro ⟨reply, t, hreturns, -⟩
  rw [hnever] at hreturns
  cases hreturns

end Instance

/-! ## The calls of the system -/

namespace System

variable [DecidableEq C] {m t : Instance C} {calls : Multiset (Call C)}
  {live : Multiset (Registration C)} {map : MapRef} {c : C} {id : Int64}

theorem step_draw :
    step ⟨m, .registering map c ::ₘ calls, live⟩ (.draw map c) =
      some ⟨{ m with id := m.id.next }, .drawn map c m.id.current ::ₘ calls, live⟩ := by
  rw [step, if_pos (Multiset.mem_cons_self _ _)]
  simp only [advance, Multiset.erase_cons_head]
  rfl

theorem step_store (hfree : m.Free map id) :
    step ⟨m, .drawn map c id ::ₘ calls, live⟩ (.store map c id) =
      some ⟨m.setMap map ((m.maps map).insert id c), calls, ⟨map, id, c⟩ ::ₘ live⟩ := by
  rw [Instance.Free] at hfree
  rw [step, if_pos (Multiset.mem_cons_self _ _), hfree, Multiset.erase_cons_head]

theorem step_busy (hbusy : ¬ m.Free map id) :
    step ⟨m, .drawn map c id ::ₘ calls, live⟩ (.store map c id) =
      some ⟨m, .registering map c ::ₘ calls, live⟩ := by
  obtain ⟨conn, hconn⟩ := Option.ne_none_iff_exists'.mp hbusy
  rw [step, if_pos (Multiset.mem_cons_self _ _), hconn, advance, Multiset.erase_cons_head]

theorem run_of_registerLoop {probes : Nat} {reply : Except ConnError Int64}
    (h : Instance.registerLoop map c probes m = some (reply, t)) :
    ∃ id es, reply = .ok id ∧
      runSteps step es ⟨m, .registering map c ::ₘ calls, live⟩ =
        some ⟨t, calls, ⟨map, id, c⟩ ::ₘ live⟩ := by
  induction probes generalizing m with
  | zero => cases h
  | succ probes ih =>
      by_cases hfree : m.Free map m.id.current
      · rw [Instance.registerLoop_free hfree] at h
        cases h
        refine ⟨m.id.current, [.draw map c, .store map c m.id.current], rfl, ?_⟩
        rw [runSteps, step_draw, Option.bind_some, runSteps,
          step_store (m := { m with id := m.id.next }) hfree]
        rfl
      · rw [Instance.registerLoop_busy hfree] at h
        obtain ⟨id, es, hreply, hrun⟩ := ih h
        refine ⟨id, .draw map c :: .store map c m.id.current :: es, hreply, ?_⟩
        rw [runSteps, step_draw, Option.bind_some, runSteps,
          step_busy (m := { m with id := m.id.next }) hfree]
        exact hrun

/-- A `Register` that returns is a run of the system in which the other calls stand still. -/
theorem run_of_register {probes : Nat} {reply : Except ConnError Int64}
    (h : m.register c probes = some (reply, t)) :
    ∃ id es, reply = .ok id ∧
      runSteps step (.register c :: es) ⟨m, calls, live⟩ =
        some ⟨t, calls, ⟨m.pmap, id, c⟩ ::ₘ live⟩ :=
  run_of_registerLoop h

end System

end CommonLib.ConnMgr
