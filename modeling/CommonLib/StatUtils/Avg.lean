import CommonLib.Reasoning.Crash
import CommonLib.Reasoning.GoSlice
import CommonLib.Reasoning.Run

/-!
# Averages of the last values

`AvgValue` keeps the last values in a slice that grows up to its capacity; from then on a cursor goes
round in it.  Seen from the cursor, the slice holds the values in the order they were pushed.
-/

namespace CommonLib.StatUtils

open CommonLib.Reasoning

structure AvgValue where
  values : List Int64
  cap : Nat
  i : Int

namespace AvgValue

/-- The number of values that `NewAvgValue` makes room for. -/
def capacity (size : Int64) : Nat := if size ≤ 0 then 10 else size.toNatClampNeg

def newAvgValue (size : Int64) : AvgValue := ⟨[], capacity size, -1⟩

def avg (s : AvgValue) : Int64 :=
  if s.values.length = 0 then 0
  else s.values.foldl (· + ·) 0 / .ofNat s.values.length

def push (g : Growth) (val : Int64) (s : AvgValue) : Except Crash (Int64 × AvgValue) :=
  let i := (if s.i + 1 = s.cap then -1 else s.i) + 1
  if i = s.values.length then
    let cap := if s.values.length < s.cap then s.cap else g.newCap s.cap (s.values.length + 1)
    let t : AvgValue := ⟨s.values ++ [val], cap, i⟩
    .ok (t.avg, t)
  else if 0 ≤ i ∧ i < s.values.length then
    let t : AvgValue := { s with values := s.values.set i.toNat val, i := i }
    .ok (t.avg, t)
  else .error .indexOutOfRange

/-! ## What the slice holds -/

/-- The last `size` values, or all of them if there are fewer. -/
def lastValues (size : Nat) (vs : List Int64) : List Int64 := vs.drop (vs.length - size)

def sum (vs : List Int64) : Int := (vs.map Int64.toInt).sum

/-- The sum of the values divided by their number, towards zero. -/
def mean (vs : List Int64) : Int := (sum vs).tdiv vs.length

def Fits (n : Int) : Prop := -2 ^ 63 ≤ n ∧ n < 2 ^ 63

instance (n : Int) : Decidable (Fits n) := inferInstanceAs (Decidable (_ ∧ _))

/-- The values from the cursor on, the oldest first. -/
structure Holds (size : Nat) (vs : List Int64) (s : AvgValue) : Prop where
  cap : s.cap = size
  cursor : 0 ≤ s.i + 1 ∧ (s.i + 1).toNat ≤ s.values.length
  length : s.values.length ≤ size
  growing : s.values.length < size → (s.i + 1).toNat = s.values.length
  recent : s.values.drop (s.i + 1).toNat ++ s.values.take (s.i + 1).toNat = lastValues size vs

variable {size : Nat} {vs : List Int64} {s : AvgValue} {val : Int64}

theorem length_lastValues (size : Nat) (vs : List Int64) :
    (lastValues size vs).length = min vs.length size := by
  rw [lastValues, List.length_drop]
  omega

theorem lastValues_concat_of_lt (h : vs.length < size) :
    lastValues size (vs ++ [val]) = lastValues size vs ++ [val] := by
  have hlen : vs.length + 1 - size = 0 := by omega
  have hlen' : vs.length - size = 0 := by omega
  rw [lastValues, lastValues, List.length_append, List.length_singleton, hlen, hlen', List.drop_zero,
    List.drop_zero]

theorem lastValues_concat_of_le (hpos : 0 < size) (h : size ≤ vs.length) :
    lastValues size (vs ++ [val]) = (lastValues size vs).tail ++ [val] := by
  have hlen : vs.length + 1 - size = vs.length - size + 1 := by omega
  rw [lastValues, lastValues, List.length_append, List.length_singleton, hlen,
    List.drop_append_of_le_length (by omega), List.tail_drop]

namespace Holds

theorem length_eq (h : Holds size vs s) : s.values.length = min vs.length size := by
  have hlen := congrArg List.length h.recent
  have hcursor := h.cursor.2
  rw [List.length_append, List.length_drop, List.length_take, length_lastValues] at hlen
  omega

theorem sum_eq (h : Holds size vs s) : sum s.values = sum (lastValues size vs) := by
  rw [← h.recent, sum, sum, List.map_append, List.sum_append, add_comm, ← List.sum_append,
    ← List.map_append, List.take_append_drop]

/-- While the slice has room, the cursor is at its end. -/
theorem push_growing (g : Growth) (h : Holds size vs s) (hroom : s.values.length < size)
    (val : Int64) :
    ∃ t, AvgValue.push g val s = .ok (t.avg, t) ∧ Holds size (vs ++ [val]) t := by
  obtain ⟨hcap, ⟨hnonneg, -⟩, -, hgrowing, hrecent⟩ := h
  have hcursor := hgrowing hroom
  have hi : s.i + 1 = s.values.length := by omega
  have hlt : vs.length < size := by
    have hlen := congrArg List.length hrecent
    rw [List.length_append, List.length_drop, List.length_take, length_lastValues] at hlen
    omega
  have hnext : (if s.i + 1 = s.cap then -1 else s.i) + 1 = s.values.length := by
    rw [if_neg (by omega), hi]
  have hlen : (s.values ++ [val]).length = s.values.length + 1 := List.length_append
  refine ⟨⟨s.values ++ [val], s.cap, s.values.length⟩, ?_, hcap, ?_, ?_, ?_, ?_⟩
  · simp only [AvgValue.push, hnext]
    rw [if_pos trivial, if_pos (by omega)]
  · dsimp only
    omega
  · dsimp only
    omega
  · dsimp only
    omega
  · have hend : ((s.values.length : Int) + 1).toNat = (s.values ++ [val]).length := by omega
    dsimp only
    rw [hend, List.drop_length, List.take_length, List.nil_append, lastValues_concat_of_lt hlt,
      ← hrecent, hcursor, List.drop_length, List.take_length, List.nil_append]

/-- The value at the cursor is the oldest one; it is overwritten. -/
theorem recent_set {values : List Int64} {i : Nat} (hi : i < values.length) (val : Int64) :
    (values.set i val).drop (i + 1) ++ (values.set i val).take (i + 1) =
      (values.drop i ++ values.take i).tail ++ [val] := by
  rw [List.drop_set_of_lt (Nat.lt_succ_self i), List.take_set, List.take_succ_eq_append_getElem hi,
    List.set_append_right _ _ (by rw [List.length_take]; omega), List.length_take,
    Nat.min_eq_left hi.le, Nat.sub_self, List.set_cons_zero, List.drop_eq_getElem_cons hi,
    List.cons_append, List.tail_cons, List.append_assoc]

theorem push_full (g : Growth) (hpos : 0 < size) (h : Holds size vs s)
    (hfull : s.values.length = size) (val : Int64) :
    ∃ t, AvgValue.push g val s = .ok (t.avg, t) ∧ Holds size (vs ++ [val]) t := by
  obtain ⟨hcap, ⟨hnonneg, hcursor⟩, -, -, hrecent⟩ := h
  have hle : size ≤ vs.length := by
    have hlen := congrArg List.length hrecent
    rw [List.length_append, List.length_drop, List.length_take, length_lastValues] at hlen
    omega
  -- where the value goes, and what the slice looks like from there
  obtain ⟨i, hi, hnext, hview⟩ : ∃ i < size,
      (if s.i + 1 = s.cap then -1 else s.i) + 1 = (i : Int) ∧
      s.values.drop i ++ s.values.take i = lastValues size vs := by
    by_cases hend : s.i + 1 = s.cap
    · refine ⟨0, hpos, by rw [if_pos hend]; rfl, ?_⟩
      have hk : (s.i + 1).toNat = s.values.length := by omega
      rw [hk, List.drop_length, List.take_length, List.nil_append] at hrecent
      rw [List.drop_zero, List.take_zero, List.append_nil, hrecent]
    · refine ⟨(s.i + 1).toNat, by omega, ?_, hrecent⟩
      rw [if_neg hend]
      omega
  have hlt : i < s.values.length := by omega
  have hlen : (s.values.set i val).length = s.values.length := List.length_set
  refine ⟨{ s with values := s.values.set i val, i := i }, ?_, hcap, ?_, ?_, ?_, ?_⟩
  · simp only [AvgValue.push, hnext]
    rw [if_neg (by omega), if_pos (by omega), Int.toNat_natCast]
  · dsimp only
    omega
  · dsimp only
    omega
  · dsimp only
    omega
  · have hcursor : ((i : Int) + 1).toNat = i + 1 := by omega
    dsimp only
    rw [hcursor, recent_set hlt, hview, lastValues_concat_of_le hpos hle]

theorem push (g : Growth) (hpos : 0 < size) (h : Holds size vs s) (val : Int64) :
    ∃ t, AvgValue.push g val s = .ok (t.avg, t) ∧ Holds size (vs ++ [val]) t := by
  rcases Nat.lt_or_eq_of_le h.length with hroom | hfull
  · exact h.push_growing g hroom val
  · exact h.push_full g hpos hfull val

end Holds

theorem capacity_pos (size : Int64) : 0 < capacity size := by
  rw [capacity]
  split
  next => decide
  next h =>
    have hpos : 0 < size.toInt := by
      rw [Int64.not_le, Int64.lt_iff_toInt_lt] at h
      exact h
    rw [Int64.toNatClampNeg]
    omega

theorem capacity_lt (size : Int64) : capacity size < 2 ^ 63 := by
  rw [capacity]
  split
  next => decide
  next =>
    have hlt := size.toInt_lt
    rw [Int64.toNatClampNeg]
    omega

theorem holds_new (size : Int64) : Holds (capacity size) [] (newAvgValue size) where
  cap := rfl
  cursor := ⟨le_rfl, le_rfl⟩
  length := Nat.zero_le _
  growing _ := rfl
  recent := by
    rw [lastValues, List.drop_nil]
    rfl

/-! ## The average -/

/-- The sum wraps around, whatever the order of the values. -/
theorem toInt_foldl_add (vs : List Int64) (a : Int64) :
    (vs.foldl (· + ·) a).toInt = (a.toInt + sum vs).bmod (2 ^ 64) := by
  induction vs generalizing a with
  | nil =>
      rw [List.foldl_nil, sum, List.map_nil, List.sum_nil, add_zero]
      exact (Int64.toInt_bmod_size a).symm
  | cons v vs ih =>
      rw [List.foldl_cons, ih, Int64.toInt_add, Int.bmod_add_bmod, sum, sum, List.map_cons,
        List.sum_cons, add_assoc]

theorem avg_eq_mean (hne : s.values ≠ []) (hlen : s.values.length < 2 ^ 63)
    (hfits : Fits (sum s.values)) : s.avg.toInt = mean s.values := by
  have hpos : 0 < s.values.length := List.length_pos_iff.mpr hne
  have hsum : (s.values.foldl (· + ·) 0).toInt = sum s.values := by
    obtain ⟨hlow, hhigh⟩ := hfits
    rw [toInt_foldl_add, Int64.toInt_zero, zero_add]
    exact Int.bmod_eq_of_le (by omega) (by omega)
  have hcount : (Int64.ofNat s.values.length).toInt = s.values.length :=
    Int64.toInt_ofNat_of_lt hlen
  have hminus : Int64.ofNat s.values.length ≠ -1 := by
    intro heq
    rw [heq] at hcount
    have hone : (-1 : Int64).toInt = -1 := rfl
    omega
  rw [avg, if_neg (by omega), Int64.toInt_div_of_ne_right _ _ hminus, hsum, hcount, mean]

theorem Holds.avg_toInt (h : Holds size vs s) (hsize : size < 2 ^ 63) (hne : vs ≠ [])
    (hpos : 0 < size) (hfits : Fits (sum (lastValues size vs))) :
    s.avg.toInt = mean (lastValues size vs) := by
  have hlen := h.length_eq
  have hvs : 0 < vs.length := List.length_pos_iff.mpr hne
  have hvalues : s.values ≠ [] := List.length_pos_iff.mp (by omega)
  rw [avg_eq_mean hvalues (by omega) (by rwa [h.sum_eq]), mean, mean, h.sum_eq, hlen,
    length_lastValues]

/-- Every `Push` whose values have a sum of 64 bits returns their average. -/
theorem runAll_push (g : Growth) (size : Int64) (vs : List Int64) :
    ∃ avgs s, runAll (push g) vs (newAvgValue size) = .ok (avgs, s) ∧ Holds (capacity size) vs s ∧
      avgs.length = vs.length ∧
      ∀ n avg, avgs[n]? = some avg → Fits (sum (lastValues (capacity size) (vs.take (n + 1)))) →
        avg.toInt = mean (lastValues (capacity size) (vs.take (n + 1))) := by
  induction vs using List.reverseRecOn with
  | nil => exact ⟨[], _, rfl, holds_new size, rfl, fun n avg h ↦ by cases h⟩
  | append_singleton vs val ih =>
      obtain ⟨avgs, s, hrun, hs, hlen, havgs⟩ := ih
      obtain ⟨t, hpush, ht⟩ := hs.push g (capacity_pos size) val
      have hone : runAll (push g) [val] s = .ok ([t.avg], t) :=
        runAll_cons_eq_ok_iff.mpr ⟨t.avg, t, [], hpush, rfl, rfl⟩
      refine ⟨avgs ++ [t.avg], t, runAll_append hrun hone, ht, ?_, fun n avg hget hfits ↦ ?_⟩
      · rw [List.length_append, List.length_append, hlen]
        rfl
      · by_cases hn : n < avgs.length
        · rw [List.getElem?_append_left hn] at hget
          rw [List.take_append_of_le_length (by omega)] at hfits ⊢
          exact havgs n avg hget hfits
        · have hn' : n = avgs.length := by
            have hlt := (List.getElem?_eq_some_iff.mp hget).1
            rw [List.length_append, List.length_singleton] at hlt
            omega
          have htake : (vs ++ [val]).take (n + 1) = vs ++ [val] := by
            apply List.take_of_length_le
            rw [List.length_append, List.length_singleton]
            omega
          rw [hn', List.getElem?_append_right le_rfl, Nat.sub_self, List.getElem?_cons_zero,
            Option.some.injEq] at hget
          rw [htake] at hfits ⊢
          rw [← hget]
          exact ht.avg_toInt (capacity_lt size) (List.concat_ne_nil val vs) (capacity_pos size) hfits

/-- The sums over `size` consecutive values, and over the first ones while there are fewer, have
64 bits. -/
structure Bounded (size : Nat) (vs : List Int64) : Prop where
  consecutive : ∀ k, k + size ≤ vs.length → Fits (sum ((vs.drop k).take size))
  first : ∀ n < size, Fits (sum (vs.take n))

theorem Bounded.fits (h : Bounded size vs) {n : Nat} (hn : n ≤ vs.length) :
    Fits (sum (lastValues size (vs.take n))) := by
  rw [lastValues, List.length_take, Nat.min_eq_left hn]
  by_cases hlt : n < size
  · rw [Nat.sub_eq_zero_of_le hlt.le, List.drop_zero]
    exact h.first n hlt
  · have hwindow := h.consecutive (n - size) (by omega)
    rwa [List.take_drop, show n - size + size = n by omega] at hwindow

/-- Each `Push` returns the truncated average of the last values, as many as there is room for. -/
theorem push_returns_mean (g : Growth) (size : Int64) (vs : List Int64)
    (h : Bounded (capacity size) vs) :
    ∃ avgs s, runAll (push g) vs (newAvgValue size) = .ok (avgs, s) ∧
      avgs.map Int64.toInt = (List.range vs.length).map fun n ↦
        mean (lastValues (capacity size) (vs.take (n + 1))) := by
  obtain ⟨avgs, s, hrun, -, hlen, havgs⟩ := runAll_push g size vs
  refine ⟨avgs, s, hrun, List.ext_getElem ?_ fun n hn hn' ↦ ?_⟩
  · rw [List.length_map, List.length_map, List.length_range, hlen]
  · rw [List.length_map] at hn
    rw [List.getElem_map, List.getElem_map, List.getElem_range]
    exact havgs n _ (List.getElem?_eq_getElem hn) (h.fits (by omega))

/-- Room for two values: the third one replaces the first. -/
theorem push_returns_mean_two :
    ∃ avgs s, runAll (push .doubling) [3, 4, -8] (newAvgValue 2) = .ok (avgs, s) ∧
      avgs.map Int64.toInt = [3, 3, -2] := by
  have hbounded : Bounded (capacity 2) [3, 4, -8] := by
    refine ⟨fun k hk ↦ ?_, fun n hn ↦ ?_⟩
    · have hk' : k < 2 := by
        change k + 2 ≤ 3 at hk
        omega
      interval_cases k <;> decide
    · change n < 2 at hn
      interval_cases n <;> decide
  exact push_returns_mean .doubling 2 [3, 4, -8] hbounded

/-- Ten values whose sum is 0: the sum of the first two does not fit, and their average comes out
as -1. -/
theorem growing_sum_wraps :
    let vs : List Int64 := [9223372036854775807, 9223372036854775807, -9223372036854775807,
      -9223372036854775807, 0, 0, 0, 0, 0, 0]
    (∀ k, k + capacity 10 ≤ vs.length → Fits (sum ((vs.drop k).take (capacity 10)))) ∧
      mean (lastValues (capacity 10) (vs.take 2)) = 2 ^ 63 - 1 ∧
      ((runAll (push .doubling) vs (newAvgValue 10)).toOption.bind (·.1[1]?)).map Int64.toInt =
        some (-1) := by
  refine ⟨fun k hk ↦ ?_, by decide +kernel, by decide +kernel⟩
  have hk' : k = 0 := by
    change k + 10 ≤ 10 at hk
    omega
  subst hk'
  decide +kernel

end AvgValue

end CommonLib.StatUtils
