import CommonLib.Reasoning.Recency
import CommonLib.XTTLMap.Contents

/-!
# Calls one after another, and a reference

The calls of a TTL map without interruption, and what they should do: a list of entries ordered by
last touch, to which each call lets certain things happen.
-/

namespace CommonLib.XTTLMap

open CommonLib.Reasoning

/-- The order in which a `range` over a map comes to its keys. -/
structure MapOrder (K : Type) where
  order : List K → List K
  perm : ∀ keys, (order keys).Perm keys

inductive Op (K V : Type)
  | set (key : K) (value : V) (deadline since now : Time)
  | get (key : K) (now : Time)
  | delete (key : K) (since now : Time)
  | resize (maxSize : Int)
  | cleanupExpired (now : Time) (range : MapOrder K)

def Op.ResizesToPositive {K V : Type} : Op K V → Prop
  | .resize maxSize => 1 ≤ maxSize
  | _ => True

variable {K V : Type} [DecidableEq K]

/-! ## The map -/

/-- `cleanupExpired` without interruption. -/
def TTLMap.cleanupExpired (s : TTLMap K V) (now : Time) (range : MapOrder K) : TTLMap K V :=
  { (range.order (s.expiredKeys now)).foldl (·.dropExpired · now) s with cleaning := false }

/-- The sections of an uninterrupted `cleanupExpired`, one after another. -/
theorem TTLMap.cleanupExpired_eq_sections (s : System K V) (now : Time) (range : MapOrder K) :
    ∃ sections,
      runSteps step sections s = some ⟨s.map.cleanupExpired now range, s.calls⟩ := by
  have hperm := range.perm (s.map.expiredKeys now)
  by_cases hkeys : s.map.expiredKeys now = []
  · refine ⟨[.cleanupCall, .cleanupScan now [], .cleanupDone], ?_⟩
    have hnone : range.order [] = [] := List.perm_nil.mp (range.perm [])
    simp [runSteps, step, cleanupExpired, advance, hkeys, hnone]
  · have hsome : range.order (s.map.expiredKeys now) ≠ [] := fun hnone ↦
      hkeys (List.nil_perm.mp (hnone ▸ hperm))
    refine ⟨[.cleanupCall, .cleanupScan now (range.order (s.map.expiredKeys now)),
      .cleanupRemove now (range.order (s.map.expiredKeys now)), .cleanupDone], ?_⟩
    simp [runSteps, step, cleanupExpired, advance, hsome, hperm]

/-- A call and what it returns; only `Get` returns something. -/
def exec (fuel : Nat) (op : Op K V) (s : TTLMap K V) : Except Crash (Option V × TTLMap K V) :=
  match op with
  | .set key value deadline since now =>
      match s.set key value deadline since now fuel with
      | some (s, _) => .ok (none, s)
      | none => .error .outOfFuel
  | .get key now => .ok ((s.get key now).2, (s.get key now).1)
  | .delete key since now => .ok (none, (s.delete key since now).1)
  | .resize maxSize =>
      match s.resize maxSize fuel with
      | some s => .ok (none, s)
      | none => .error .outOfFuel
  | .cleanupExpired now range => .ok (none, s.cleanupExpired now range)

/-! ## The reference -/

/-- The limit, and what has happened to the entries, the first thing first. -/
structure Reference (K V : Type) where
  maxSize : Int
  history : List (Happening K (Item V))

namespace Reference

open Recency

def new (maxSize : Int) : Reference K V := ⟨maxSize, []⟩

/-- The entries, ordered by last touch. -/
def entries (r : Reference K V) : List (K × Item V) := after r.history

def happenings (r : Reference K V) : Op K V → List (Happening K (Item V))
  | .set key value deadline _ _ =>
      if key ∈ keys r.entries then [.put key ⟨value, deadline⟩]
      else evictions r.entries (r.maxSize - 1).toNat ++ [.put key ⟨value, deadline⟩]
  | .get key now =>
      match find r.entries key with
      | none => []
      | some item => if item.expired now then [.remove key] else [.touch key]
  | .delete key _ _ => [.remove key]
  | .resize maxSize => if maxSize < r.maxSize then evictions r.entries maxSize.toNat else []
  | .cleanupExpired now _ => (keys (r.entries.filter fun e ↦ e.2.expired now)).map .remove

def reply (r : Reference K V) : Op K V → Option V
  | .get key now =>
      match find r.entries key with
      | none => none
      | some item => if item.expired now then none else some item.value
  | _ => none

def next (r : Reference K V) (op : Op K V) : Reference K V where
  maxSize := match op with
    | .resize maxSize => maxSize
    | _ => r.maxSize
  history := r.history ++ r.happenings op

def exec (op : Op K V) (r : Reference K V) : Option V × Reference K V := (r.reply op, r.next op)

section Next

variable (r : Reference K V)

theorem entries_next (op : Op K V) :
    (r.next op).entries = (r.happenings op).foldl apply r.entries :=
  after_append ..

theorem nodup_entries : (keys r.entries).Nodup := nodup_after r.history

theorem entries_set (key : K) (value : V) (deadline since now : Time) :
    (r.next (.set key value deadline since now)).entries =
      apply (if key ∈ keys r.entries then r.entries else r.entries.take (r.maxSize - 1).toNat)
        (.put key ⟨value, deadline⟩) := by
  rw [entries_next, happenings]
  split
  · rfl
  · rw [List.foldl_append, (evictions_spec r.nodup_entries _).1]
    rfl

theorem entries_get_of_none {key : K} (hfind : find r.entries key = none) (now : Time) :
    (r.next (.get key now)).entries = r.entries := by
  simp only [entries_next, happenings, hfind, List.foldl_nil]

theorem entries_get_of_some {key : K} {item : Item V} (hfind : find r.entries key = some item)
    (now : Time) :
    (r.next (.get key now)).entries =
      if item.expired now then without r.entries key else apply r.entries (.touch key) := by
  simp only [entries_next, happenings, hfind]
  split <;> rfl

theorem entries_resize (maxSize : Int) :
    (r.next (.resize maxSize)).entries =
      if maxSize < r.maxSize then r.entries.take maxSize.toNat else r.entries := by
  rw [entries_next, happenings]
  split
  · exact (evictions_spec r.nodup_entries _).1
  · rfl

theorem entries_cleanupExpired (now : Time) (range : MapOrder K) :
    (r.next (.cleanupExpired now range)).entries = r.entries.filter fun e ↦ ¬e.2.expired now := by
  rw [entries_next, happenings, foldl_remove_filter r.nodup_entries]

/-- Only `Set` adds an entry. -/
theorem length_next_le (op : Op K V) : (r.next op).entries.length ≤ r.entries.length + 1 := by
  cases op with
  | set key value deadline since now =>
      rw [entries_set, apply, List.length_cons]
      refine Nat.succ_le_succ ((List.length_filter_le ..).trans ?_)
      split
      · exact le_rfl
      · exact List.length_take_le' ..
  | get key now =>
      cases hfind : find r.entries key with
      | none => rw [entries_get_of_none r hfind]; exact Nat.le_succ _
      | some item =>
          rw [entries_get_of_some r hfind]
          split
          · exact (List.length_filter_le ..).trans (Nat.le_succ _)
          · exact (touch_perm r.entries key).length_eq.trans_le (Nat.le_succ _)
  | delete key since now =>
      rw [entries_next]
      exact (List.length_filter_le ..).trans (Nat.le_succ _)
  | resize maxSize =>
      rw [entries_resize]
      split
      · exact (List.length_take_le' ..).trans (Nat.le_succ _)
      · exact Nat.le_succ _
  | cleanupExpired now range =>
      rw [entries_cleanupExpired]
      exact (List.length_filter_le ..).trans (Nat.le_succ _)

end Next

/-! ## What the reference evicts -/

theorem evictsLast_happenings (r : Reference K V) (op : Op K V) :
    EvictsLast r.entries (r.happenings op) := by
  cases op with
  | set key value deadline since now =>
      rw [happenings]
      split
      · exact evictsLast_of_not_evict (by simp)
      · exact (evictions_spec r.nodup_entries _).2.append (evictsLast_of_not_evict (by simp))
  | get key now =>
      rw [happenings]
      refine evictsLast_of_not_evict fun k room hmem ↦ ?_
      split at hmem
      · cases hmem
      · split at hmem <;> simp at hmem
  | delete key since now => exact evictsLast_of_not_evict (by simp [happenings])
  | resize maxSize =>
      rw [happenings]
      split
      · exact (evictions_spec r.nodup_entries _).2
      · exact evictsLast_of_not_evict fun _ _ ↦ List.not_mem_nil
  | cleanupExpired now range => exact evictsLast_of_not_evict (by simp [happenings])

theorem evictsLast_run (ops : List (Op K V)) {r : Reference K V} (h : EvictsLast [] r.history) :
    EvictsLast [] (runTotal exec ops r).2.history := by
  induction ops generalizing r with
  | nil => exact h
  | cons op ops ih => exact ih (h.append (evictsLast_happenings r op))

end Reference

end CommonLib.XTTLMap
