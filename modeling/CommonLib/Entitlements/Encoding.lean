import CommonLib.Entitlements.Entity
import CommonLib.Reasoning.Decimals
import CommonLib.Reasoning.JSON

/-!
# The texts of `encoding/json`

A map is written with its keys in order.  A number is read as the `float64` nearest to it.
-/

namespace CommonLib.Entitlements

open Reasoning

/-- The `float64` nearest to an integer, which has 53 bits. -/
def nearest (n : Int) : ℚ :=
  let ulp : ℚ := 2 ^ (Nat.log2 n.natAbs - 52)
  n.sign * (roundHalfEven (n.natAbs / ulp) * ulp)

theorem nearest_of_lt {n : Int} (h : |(n : ℚ)| < 2 ^ 53) : nearest n = n := by
  have habs : n.natAbs < 2 ^ 53 := by
    have hint : |n| < 2 ^ 53 := by exact_mod_cast h
    rw [Int.abs_eq_natAbs] at hint
    exact_mod_cast hint
  have hlog : Nat.log2 n.natAbs - 52 = 0 := by
    by_cases hzero : n.natAbs = 0
    · rw [hzero]
      rfl
    · have hlt := (Nat.log2_lt hzero).mpr habs
      omega
  have hround : roundHalfEven (n.natAbs / 1) = n.natAbs := by
    rw [div_one]
    exact roundHalfEven_eq (Nat.cast_nonneg _) (by rw [sub_self, abs_zero]; norm_num)
  rw [nearest, hlog, pow_zero, hround, mul_one]
  have hsign : ((n.sign * (n.natAbs : Int) : Int) : ℚ) = n := by rw [Int.sign_mul_natAbs]
  rwa [Int.cast_mul, Int.cast_natCast] at hsign

/-- The values that are written; a fraction or a nested value is not among them. -/
def JSON.isPlain : JSON → Bool
  | .number v => v.den = 1
  | .compound _ => false
  | _ => true

def JSON.toValue : JSON → Reasoning.JSON.Value
  | .null | .compound _ => .null
  | .bool v => .bool v
  | .number v => .number v.num
  | .string v => .string v

def JSON.ofValue : Reasoning.JSON.Value → JSON
  | .null => .null
  | .bool v => .bool v
  | .number v => .number (nearest v)
  | .string v => .string v

theorem JSON.Plain.isPlain {v : JSON} (h : v.Plain) : v.isPlain = true := by
  cases v with
  | number v =>
      obtain ⟨n, rfl, -⟩ := h
      rfl
  | compound text => exact absurd h id
  | null => rfl
  | bool v => rfl
  | string v => rfl

theorem JSON.Plain.returns {v : JSON} (h : v.Plain) : v.Returns (.ofValue v.toValue.valid) := by
  cases v with
  | null => exact .null
  | bool v => exact .bool v
  | string v => exact .string v
  | number v =>
      obtain ⟨n, rfl, -⟩ := h
      exact .number _ _ nearest_of_lt
  | compound text => exact absurd h id

/-- The members in the order of their keys. -/
def sorted (object : GoMap GoString JSON) : List Reasoning.JSON.Member :=
  (object.entries.map fun entry ↦ (entry.1, entry.2.toValue)).mergeSort
    fun m m' ↦ !decide (m'.1 < m.1)

def marshal (object : GoMap GoString JSON) : Option (List UInt8) :=
  if object.entries.all (·.2.isPlain) then
    some (Reasoning.JSON.Layout.compact.object (sorted object))
  else none

/-- Of two members with one key, the later one counts. -/
def unmarshal (text : List UInt8) : Option (GoMap GoString JSON) :=
  (Reasoning.JSON.readObject text).map (GoMap.collect Prod.fst fun m ↦ .ofValue m.2)

theorem mem_sorted {object : GoMap GoString JSON} {m : Reasoning.JSON.Member} :
    m ∈ sorted object ↔ ∃ v, object.lookup m.1 = some v ∧ v.toValue = m.2 := by
  rw [sorted, List.mem_mergeSort, List.mem_map]
  constructor
  · rintro ⟨⟨key, v⟩, hentry, rfl⟩
    exact ⟨v, AList.mem_lookup_iff.mpr hentry, rfl⟩
  · rintro ⟨v, hlookup, hvalue⟩
    exact ⟨⟨m.1, v⟩, AList.mem_lookup_iff.mp hlookup, Prod.ext rfl hvalue⟩

/-- The codec, which writes JSON. -/
def encodingJSON : Codec where
  marshal := marshal
  unmarshal := unmarshal
  roundTrip object hplain := by
    have hall : object.entries.all (·.2.isPlain) = true := by
      refine List.all_eq_true.mpr fun entry hentry ↦ ?_
      exact (hplain entry.1 entry.2 (AList.mem_lookup_iff.mpr hentry)).2.isPlain
    refine ⟨_, _, if_pos hall, by rw [unmarshal, Reasoning.JSON.readObject_object]; rfl, ?_⟩
    intro key
    cases hback : (GoMap.collect Prod.fst (fun m ↦ JSON.ofValue m.2)
      ((sorted object).map Reasoning.JSON.Member.valid)).lookup key with
    | none =>
        have hnone : object.lookup key = none := by
          by_contra hsome
          obtain ⟨v, hv⟩ := Option.ne_none_iff_exists'.mp hsome
          have hmem : (key, v.toValue) ∈ sorted object := mem_sorted.mpr ⟨v, hv, rfl⟩
          refine GoMap.lookup_collect_eq_none.mp hback _ (List.mem_map_of_mem hmem) ?_
          exact (hplain key v hv).1
        rw [hnone]
        exact .none
    | some w =>
        obtain ⟨before, m, after, hms, rfl, rfl, -⟩ := GoMap.last_of_lookup_collect hback
        have hmem : m ∈ (sorted object).map Reasoning.JSON.Member.valid := by
          rw [hms]
          exact List.mem_append_right _ List.mem_cons_self
        obtain ⟨m, hm, rfl⟩ := List.mem_map.mp hmem
        obtain ⟨v, hv, hvalue⟩ := mem_sorted.mp hm
        obtain ⟨hkey, hv'⟩ := hplain m.1 v hv
        change Option.Rel _ (object.lookup (UTF8.toValid m.1)) (some (JSON.ofValue m.2.valid))
        rw [hkey, hv, ← hvalue]
        exact .some hv'.returns

end CommonLib.Entitlements
