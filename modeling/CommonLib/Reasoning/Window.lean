import Mathlib

/-! Windows of a memory that is addressed by offsets, and writes of whole lists into it. -/

namespace CommonLib.Reasoning

variable {α : Type*}

def window (mem : Nat → α) (off n : Nat) : List α := (List.range n).map fun i ↦ mem (off + i)

def writeAt (mem : Nat → α) (off : Nat) (bs : List α) : Nat → α := fun i ↦
  if off ≤ i then (bs[i - off]?).getD (mem i) else mem i

@[simp] theorem length_window (mem : Nat → α) (off n : Nat) : (window mem off n).length = n := by
  simp [window]

theorem window_congr {mem mem' : Nat → α} {off n : Nat}
    (h : ∀ i, off ≤ i → i < off + n → mem i = mem' i) : window mem off n = window mem' off n := by
  apply List.map_congr_left
  intro i hi
  rw [List.mem_range] at hi
  exact h (off + i) (by omega) (by omega)

theorem window_add (mem : Nat → α) (off a b : Nat) :
    window mem off (a + b) = window mem off a ++ window mem (off + a) b := by
  unfold window
  rw [List.range_add, List.map_append, List.map_map]
  simp only [Function.comp_def, Nat.add_assoc]

theorem window_sub (mem : Nat → α) {off n a b : Nat} (h : a + b ≤ n) :
    ((window mem off n).drop a).take b = window mem (off + a) b := by
  obtain ⟨c, rfl⟩ := Nat.exists_eq_add_of_le h
  rw [Nat.add_assoc, window_add, window_add,
    List.drop_left' (length_window ..), List.take_left' (length_window ..)]

theorem writeAt_of_lt (mem : Nat → α) {off i : Nat} (bs : List α) (h : i < off) :
    writeAt mem off bs i = mem i := if_neg (by omega)

theorem writeAt_of_ge (mem : Nat → α) {off i : Nat} (bs : List α) (h : off + bs.length ≤ i) :
    writeAt mem off bs i = mem i := by
  unfold writeAt
  rw [if_pos (by omega), List.getElem?_eq_none (by omega), Option.getD_none]

theorem window_writeAt_disjoint (mem : Nat → α) {off p n : Nat} (bs : List α)
    (h : p + n ≤ off ∨ off + bs.length ≤ p) :
    window (writeAt mem off bs) p n = window mem p n := by
  apply window_congr
  intro i hlo hhi
  rcases h with h | h
  · exact writeAt_of_lt mem bs (by omega)
  · exact writeAt_of_ge mem bs (by omega)

theorem window_writeAt_self (mem : Nat → α) (off : Nat) (bs : List α) :
    window (writeAt mem off bs) off bs.length = bs := by
  apply List.ext_getElem (by simp)
  intro i h₁ h₂
  simp [window, writeAt, h₂]

theorem writeAt_window (mem : Nat → α) (off n : Nat) : writeAt mem off (window mem off n) = mem := by
  funext i
  by_cases hin : off ≤ i ∧ i < off + n
  · have hlt : i - off < n := by omega
    rw [writeAt, if_pos hin.1, window, List.getElem?_map, List.getElem?_range hlt]
    change mem (off + (i - off)) = mem i
    rw [Nat.add_sub_cancel' hin.1]
  · rw [not_and_or, Nat.not_le, Nat.not_lt] at hin
    obtain hlt | hge := hin
    · exact writeAt_of_lt mem _ hlt
    · exact writeAt_of_ge mem _ (by rwa [length_window])

theorem writeAt_append (mem : Nat → α) (off : Nat) (xs ys : List α) :
    writeAt (writeAt mem off xs) (off + xs.length) ys = writeAt mem off (xs ++ ys) := by
  funext i
  by_cases hlo : off + xs.length ≤ i
  · unfold writeAt
    rw [if_pos hlo, if_pos (by omega), if_pos (by omega), List.getElem?_append_right (by omega),
      List.getElem?_eq_none (l := xs) (by omega), Option.getD_none,
      show i - off - xs.length = i - (off + xs.length) by omega]
  · rw [writeAt_of_lt _ ys (by omega)]
    unfold writeAt
    split
    · rw [List.getElem?_append_left (by omega)]
    · rfl

end CommonLib.Reasoning
