import CommonLib.XTTLMap.Interleaving

/-!
# When the eviction loops end

`Set` and `Resize` evict while the map has too many entries, and hold the lock meanwhile.  A round
removes an entry as long as the list has a node, so the loops end unless they wait for fewer entries
than none, or the list has lost nodes of the map.
-/

namespace CommonLib.XTTLMap

open CommonLib.Reasoning

variable {K V : Type} [DecidableEq K]

namespace TTLMap

variable {m m' : TTLMap K V} {key : K}

/-- Once the list is empty a round changes nothing. -/
theorem evictWhile_stuck {cond : TTLMap K V → Bool} (htail : m.tail = none) (hcond : cond m = true)
    (fuel : Nat) : evictWhile cond fuel m = none := by
  induction fuel with
  | zero => rfl
  | succ fuel ih => rw [evictWhile, if_pos hcond, removeOldest, htail, ih]

theorem evictWhile_round {cond : TTLMap K V → Bool} (hcond : cond m = true)
    (hrest : ∀ fuel, evictWhile cond fuel m.removeOldest = none) (fuel : Nat) :
    evictWhile cond fuel m = none := by
  cases fuel with
  | zero => rfl
  | succ fuel => rw [evictWhile, if_pos hcond, hrest]

theorem set_stuck {value : V} {deadline since now : Time} {fuel : Nat}
    (hnone : m.items.lookup key = none)
    (hevict : evictWhile (fun s ↦ decide ((s.items.size : Int) ≥ s.maxSize)) fuel m = none) :
    m.set key value deadline since now fuel = none := by
  rw [set, hnone]
  exact congrArg (Option.bind · _) hevict

theorem room_of_set {value : V} {deadline since now : Time} {fuel : Nat} {spawn : Bool}
    {l : List Ptr} (hl : Agrees m l)
    (heq : m.set key value deadline since now fuel = some (m', spawn)) :
    (m.items.lookup key).isSome ∨ 1 ≤ m.maxSize := by
  rw [set] at heq
  split at heq
  next node hnode =>
    left
    rw [hnode]
    rfl
  next =>
    right
    obtain ⟨m₁, hevict, -⟩ := Option.bind_eq_some_iff.mp heq
    obtain ⟨hkeeps, hcond⟩ := evictWhile_keeps hl hevict
    have hlt : ¬ (m₁.items.size : Int) ≥ m₁.maxSize := of_decide_eq_false hcond
    rw [hkeeps.maxSize_eq] at hlt
    omega

theorem room_of_resize {maxSize : Int} {fuel : Nat} {l : List Ptr} (hl : Agrees m l)
    (heq : m.resize maxSize fuel = some m') : m.maxSize ≤ maxSize ∨ 0 ≤ maxSize := by
  rw [resize] at heq
  obtain ⟨m₁, hevict, -⟩ := Option.map_eq_some_iff.mp heq
  split at hevict
  · have hle : ¬ (m₁.items.size : Int) > maxSize :=
      of_decide_eq_false (evictWhile_keeps hl hevict).2
    omega
  · omega

/-- When the loops of the next call end, and how many entries `Set` leaves. -/
structure Ends (m : TTLMap K V) : Prop where
  set : ∀ key value deadline since now,
    (∃ fuel r, m.set key value deadline since now fuel = some r) ↔
      (m.items.lookup key).isSome ∨ 1 ≤ m.maxSize
  resize : ∀ maxSize, (∃ fuel m', m.resize maxSize fuel = some m') ↔
    m.maxSize ≤ maxSize ∨ 0 ≤ maxSize
  size : ∀ key value deadline since now fuel m' spawn,
    m.set key value deadline since now fuel = some (m', spawn) →
      (m'.items.size : Int) ≤ max m'.maxSize 1

theorem Bounded.ends (h : Bounded m) : Ends m where
  set key value deadline since now := by
    obtain ⟨l, hl⟩ := h.agrees
    refine ⟨fun ⟨_, _, heq⟩ ↦ room_of_set hl heq, fun hroom ↦ ⟨m.items.size + 1, ?_⟩⟩
    apply Option.isSome_iff_exists.mp
    exact set_returns_of_room hl hroom value deadline since now (Nat.lt_succ_self _)
  resize maxSize := by
    obtain ⟨l, hl⟩ := h.agrees
    refine ⟨fun ⟨_, _, heq⟩ ↦ room_of_resize hl heq, fun hroom ↦ ⟨m.items.size + 1, ?_⟩⟩
    apply Option.isSome_iff_exists.mp
    exact resize_returns_of_room hl hroom (Nat.lt_succ_self _)
  size key value deadline since now fuel m' spawn heq := by
    have hle := (set_bounded h heq).1.size_le
    omega

end TTLMap

/-- As long as `Get` splices stored nodes only, `Set` returns unless the key is new and the limit is
less than one, and `Resize` unless it lowers the limit below zero. -/
theorem ends_of_touchesStored [Inhabited K] [Inhabited V] (maxSize : Int) (now : Time)
    (es : List (Event K V)) (h : EveryStep step Event.TouchesStored es (System.init maxSize now)) :
    EveryState step (fun s ↦ s.map.Ends) es (System.init maxSize now) :=
  (h.everyState (fun _ _ _ hbounded htouch hstep ↦ (step_bounded hbounded htouch hstep).1)
    (init_bounded maxSize now)).imp fun _ hbounded ↦ hbounded.ends

/-- Two entries under a limit of two, then a limit of zero. -/
theorem ends_of_touchesStored_two :
    EveryState (step (K := Nat) (V := Nat)) (fun s ↦ s.map.Ends)
      [.set 1 7 0 0 0 5, .getFind 1, .getCheck 1 0 0, .set 2 8 0 0 0 5, .getTouch 0, .resize 0 5]
      (System.init 2 0) := by
  apply ends_of_touchesStored
  refine .cons rfl trivial (.cons rfl trivial (.cons rfl trivial (.cons rfl trivial ?_)))
  exact .cons rfl rfl (.cons rfl trivial trivial)

/-- A map for no entry: `Set` waits for less than none.  A limit below zero: so does `Resize`.  And
under a limit of one: `Get` splices a node that `Delete` has removed, which drops the stored node
from the list, so that the next `Set` finds nothing to evict. -/
theorem eviction_never_ends :
    (∀ fuel, (TTLMap.new 0 0 : TTLMap Nat Nat).set 1 7 0 0 0 fuel = none) ∧
    (∀ fuel, (TTLMap.new 1 0 : TTLMap Nat Nat).resize (-1) fuel = none) ∧
    ∃ s, runSteps (step (K := Nat) (V := Nat))
        [.set 1 7 0 0 0 5, .getFind 1, .getCheck 1 0 0, .delete 1 0 0, .set 2 8 0 0 0 5, .getTouch 0]
        (System.init 1 0) = some s ∧
      ∀ fuel, s.map.set 3 9 0 0 0 fuel = none := by
  refine ⟨fun fuel ↦ ?_, fun fuel ↦ ?_, _, rfl, fun fuel ↦ ?_⟩
  · exact TTLMap.set_stuck rfl (TTLMap.evictWhile_stuck rfl rfl fuel)
  · rw [TTLMap.resize, if_pos (by decide)]
    exact congrArg (Option.map _) (TTLMap.evictWhile_stuck rfl rfl fuel)
  · apply TTLMap.set_stuck rfl
    -- the one round with a tail takes the node of the deleted key
    exact TTLMap.evictWhile_round rfl (TTLMap.evictWhile_stuck rfl rfl) fuel

end CommonLib.XTTLMap
