import Mathlib

/-!
# Slices that share backing arrays

A slice is a window of an array with room behind it.  `append` writes into that room when it is
large enough, where every other slice of the array sees the write, and moves to a new array when it
is not.  How much room a new array has is the runtime's choice.
-/

namespace CommonLib.Reasoning

structure Arrays (α : Type) where
  cell : Nat → Nat → α
  fresh : Nat

structure Slice where
  arr : Nat
  off : Nat
  len : Nat
  cap : Nat

/-- The capacity of the new array, from the old capacity and the length it has to hold. -/
structure Growth where
  newCap : Nat → Nat → Nat
  le_newCap : ∀ cap len, len ≤ newCap cap len

/-- What the runtime does for a slice of fewer than 256 pointers. -/
def Growth.doubling : Growth where
  newCap cap len := max len (2 * cap)
  le_newCap _ _ := le_max_left ..

variable {α : Type}

def Arrays.write (h : Arrays α) (arr pos : Nat) (xs : List α) : Arrays α where
  cell a i := if a = arr ∧ pos ≤ i then (xs[i - pos]?).getD (h.cell a i) else h.cell a i
  fresh := h.fresh

/-- A new array, at address `h.fresh`, that starts with `xs`. -/
def Arrays.alloc (h : Arrays α) (xs : List α) : Arrays α where
  cell := (h.write h.fresh 0 xs).cell
  fresh := h.fresh + 1

namespace Slice

def get (s : Slice) (h : Arrays α) (i : Nat) : α := h.cell s.arr (s.off + i)

def toList (s : Slice) (h : Arrays α) : List α := (List.range s.len).map (s.get h)

/-- `s[:j]`. -/
def upTo (s : Slice) (j : Nat) : Slice := { s with len := j }

/-- `s[i:]`. -/
def after (s : Slice) (i : Nat) : Slice :=
  { s with off := s.off + i, len := s.len - i, cap := s.cap - i }

def append (g : Growth) (h : Arrays α) (s : Slice) (xs : List α) : Arrays α × Slice :=
  if s.len + xs.length ≤ s.cap then
    (h.write s.arr (s.off + s.len) xs, { s with len := s.len + xs.length })
  else
    (h.alloc (s.toList h ++ xs),
      ⟨h.fresh, 0, s.len + xs.length, g.newCap s.cap (s.len + xs.length)⟩)

theorem length_toList (s : Slice) (h : Arrays α) : (s.toList h).length = s.len := by
  simp [toList]

theorem getElem?_toList (s : Slice) (h : Arrays α) (i : Nat) :
    (s.toList h)[i]? = if i < s.len then some (s.get h i) else none := by
  unfold toList
  split
  next hi => simp [List.getElem?_range hi]
  next hi => simp [Nat.le_of_not_lt hi]

theorem toList_upTo {s : Slice} (h : Arrays α) {j : Nat} (hj : j ≤ s.len) :
    (s.upTo j).toList h = (s.toList h).take j := by
  apply List.ext_getElem?
  intro i
  rw [getElem?_toList, List.getElem?_take, getElem?_toList]
  by_cases hi : i < j
  · rw [if_pos hi, if_pos (Nat.lt_of_lt_of_le hi hj)]
    exact if_pos hi
  · rw [if_neg hi]
    exact if_neg hi

theorem toList_after (s : Slice) (h : Arrays α) (j : Nat) :
    (s.after j).toList h = (s.toList h).drop j := by
  apply List.ext_getElem?
  intro i
  rw [getElem?_toList, List.getElem?_drop, getElem?_toList]
  have hget : (s.after j).get h i = s.get h (j + i) := by
    unfold get after
    rw [Nat.add_assoc]
  have hlt : i < (s.after j).len ↔ j + i < s.len := by
    change i < s.len - j ↔ _
    omega
  simp only [hget, hlt]

theorem append_len (g : Growth) (h : Arrays α) (s : Slice) (xs : List α) :
    (append g h s xs).2.len = s.len + xs.length := by
  unfold append
  split <;> rfl

theorem get_write (h : Arrays α) (t : Slice) (arr pos : Nat) (xs : List α) (i : Nat) :
    t.get (h.write arr pos xs) i =
      if t.arr = arr ∧ pos ≤ t.off + i then (xs[t.off + i - pos]?).getD (t.get h i)
      else t.get h i := rfl

theorem get_write_end (h : Arrays α) (s : Slice) (xs : List α) (i : Nat) :
    s.get (h.write s.arr (s.off + s.len) xs) i =
      if i < s.len then s.get h i else (xs[i - s.len]?).getD (s.get h i) := by
  rw [get_write]
  by_cases hi : i < s.len
  · rw [if_pos hi, if_neg (by omega)]
  · rw [if_neg hi, if_pos ⟨rfl, by omega⟩, Nat.add_sub_add_left]

/-- In place or not, the result holds the old elements and then the new ones. -/
theorem toList_append (g : Growth) (h : Arrays α) (s : Slice) (xs : List α) :
    (append g h s xs).2.toList (append g h s xs).1 = s.toList h ++ xs := by
  apply List.ext_getElem?
  intro i
  rw [getElem?_toList, append_len]
  by_cases hi : i < s.len + xs.length
  · rw [if_pos hi]
    by_cases hcap : s.len + xs.length ≤ s.cap
    · have hget : (append g h s xs).2.get (append g h s xs).1 i =
          s.get (h.write s.arr (s.off + s.len) xs) i := by
        unfold append
        rw [if_pos hcap]
        rfl
      rw [hget, get_write_end, List.getElem?_append, length_toList, getElem?_toList]
      by_cases hlt : i < s.len
      · rw [if_pos hlt, if_pos hlt, if_pos hlt]
      · rw [if_neg hlt, if_neg hlt, List.getElem?_eq_getElem (by omega), Option.getD_some]
    · have hget : (append g h s xs).2.get (append g h s xs).1 i =
          ((s.toList h ++ xs)[i]?).getD (h.cell h.fresh i) := by
        unfold append
        rw [if_neg hcap]
        simp [get, Arrays.alloc, Arrays.write]
      have hlen : i < (s.toList h ++ xs).length := by
        rw [List.length_append, length_toList]
        exact hi
      rw [hget, List.getElem?_eq_getElem hlen, Option.getD_some]
  · rw [if_neg hi, List.getElem?_eq_none]
    rw [List.length_append, length_toList]
    omega

/-- Another slice's elements stay, or become elements that were appended. -/
theorem forall_toList_append {P : α → Prop} (g : Growth) {h : Arrays α} {s t : Slice}
    {xs : List α} (harr : t.arr < h.fresh) (ht : ∀ x ∈ t.toList h, P x) (hxs : ∀ x ∈ xs, P x) :
    ∀ x ∈ t.toList (append g h s xs).1, P x := by
  intro x hx
  obtain ⟨i, hi, rfl⟩ := List.mem_map.mp hx
  have hold : P (t.get h i) := ht _ (List.mem_map.mpr ⟨i, hi, rfl⟩)
  have hwrite : ∀ (arr pos : Nat), P (t.get (h.write arr pos xs) i) := by
    intro arr pos
    rw [get_write]
    split
    · cases hget : xs[t.off + i - pos]? with
      | none => exact hold
      | some y => exact hxs y (List.mem_of_getElem? hget)
    · exact hold
  unfold append
  split
  · exact hwrite ..
  · have hother : t.get (h.alloc (s.toList h ++ xs)) i = t.get h i := by
      unfold get Arrays.alloc Arrays.write
      exact if_neg fun hand ↦ harr.ne hand.1
    rw [hother]
    exact hold

theorem append_fresh_le (g : Growth) (h : Arrays α) (s : Slice) (xs : List α) :
    h.fresh ≤ (append g h s xs).1.fresh := by
  unfold append
  split
  · exact le_rfl
  · exact Nat.le_succ _

theorem append_arr_lt (g : Growth) {h : Arrays α} {s : Slice} (xs : List α)
    (harr : s.arr < h.fresh) : (append g h s xs).2.arr < (append g h s xs).1.fresh := by
  unfold append
  split
  · exact harr
  · exact Nat.lt_succ_self _

end Slice

end CommonLib.Reasoning
