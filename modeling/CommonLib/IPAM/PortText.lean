import CommonLib.IPAM.Netfilter
import CommonLib.Reasoning.Text
import CommonLib.XError.Response

/-!
# Port ranges as texts

A range is written as one number or as two with a hyphen between them.  What is read may have blanks
around its numbers, and signs in front of them.
-/

namespace CommonLib.IPAM

open CommonLib.Reasoning CommonLib.XError

namespace PortRange

/-- One turn of the loop of `UnmarshalText`. -/
def bound (p : GoString) : Option UInt16 :=
  match p.trimSpace.atoi with
  | none => none
  | some p => if p < 0 ∨ p > 65535 then none else some p.toUInt64.toUInt16

def invalidRange (s : GoString) : AnyError := .other (.ofASCII "invalid range " ++ s)

/-- `UnmarshalText`, with the error it returns and the receiver it leaves. -/
def unmarshalText (rng : PortRange) (raw : GoString) : Option AnyError × PortRange :=
  let parts := raw.split 45
  if parts.length > 2 ∨ parts.length < 1 then (some (invalidRange raw), rng)
  else
    match parts.mapM bound with
    | none | some [] => (some (invalidRange raw), rng)
    | some [p] => (none, ⟨p, p⟩)
    | some (p :: q :: _) => (none, ⟨p, q⟩)

def marshalText (rng : PortRange) : GoString :=
  if rng.low = rng.high then GoString.formatDecimal rng.low.toNat
  else GoString.formatDecimal rng.low.toNat ++ 45 :: GoString.formatDecimal rng.high.toNat

/-! ## What is written can be read -/

theorem bound_formatDecimal (p : UInt16) : bound (.formatDecimal p.toNat) = some p := by
  have hp := p.toNat_lt
  have htoInt : (Int64.ofNat p.toNat).toInt = p.toNat := Int64.toInt_ofNat_of_lt (by omega)
  rw [bound, GoString.trimSpace_formatDecimal, GoString.atoi_formatDecimal (by omega)]
  dsimp only
  rw [if_neg]
  · congr 1
    apply UInt16.toNat_inj.mp
    simp
  · rw [Int64.lt_iff_toInt_lt, gt_iff_lt, Int64.lt_iff_toInt_lt, htoInt]
    simp only [Int64.reduceToInt]
    omega

theorem hyphen_not_mem_formatDecimal (n : Nat) : 45 ∉ GoString.formatDecimal n :=
  fun h ↦ absurd (GoString.isDigit_of_mem_formatDecimal h) (by decide)

theorem split_marshalText (rng : PortRange) : (marshalText rng).split 45 =
    if rng.low = rng.high then [.formatDecimal rng.low.toNat]
    else [.formatDecimal rng.low.toNat, .formatDecimal rng.high.toNat] := by
  rw [marshalText]
  split
  next =>
    refine (congrArg (GoString.split · 45) ?_).trans (@GoString.split_join _ 45 ?_ ?_)
    · simp [GoString.join]
    · intro s hs
      rw [List.mem_singleton.mp hs]
      exact hyphen_not_mem_formatDecimal _
    · exact List.cons_ne_nil _ _
  next =>
    refine (congrArg (GoString.split · 45) ?_).trans (@GoString.split_join _ 45 ?_ ?_)
    · simp [GoString.join, List.intercalate]
    · intro s hs
      rcases List.mem_pair.mp hs with rfl | rfl
      · exact hyphen_not_mem_formatDecimal _
      · exact hyphen_not_mem_formatDecimal _
    · exact List.cons_ne_nil _ _

theorem unmarshalText_one {raw p : GoString} {v : UInt16} (hsplit : raw.split 45 = [p])
    (hp : bound p = some v) (rng : PortRange) : unmarshalText rng raw = (none, ⟨v, v⟩) := by
  rw [unmarshalText, hsplit, if_neg (by simp), List.mapM_cons, hp]
  rfl

theorem unmarshalText_two {raw p q : GoString} {v w : UInt16} (hsplit : raw.split 45 = [p, q])
    (hp : bound p = some v) (hq : bound q = some w) (rng : PortRange) :
    unmarshalText rng raw = (none, ⟨v, w⟩) := by
  rw [unmarshalText, hsplit, if_neg (by simp), List.mapM_cons, hp, List.mapM_cons, hq]
  rfl

theorem unmarshal_marshal (rng rng' : PortRange) :
    unmarshalText rng' (marshalText rng) = (none, rng) := by
  have hsplit := split_marshalText rng
  obtain ⟨low, high⟩ := rng
  by_cases heq : low = high
  · subst heq
    rw [if_pos rfl] at hsplit
    exact unmarshalText_one hsplit (bound_formatDecimal low) rng'
  · rw [if_neg heq] at hsplit
    exact unmarshalText_two hsplit (bound_formatDecimal low) (bound_formatDecimal high) rng'

/-! ## What is rejected -/

/-- The text of a bound stands for the number, with a plus sign or without. -/
def Denotes (p : GoString) (n : Nat) : Prop :=
  p.trimSpace.decimal = some n ∨ ∃ s, p.trimSpace = 43 :: s ∧ GoString.decimal s = some n

theorem bound_of_empty {p : GoString} (h : p.trimSpace = []) : bound p = none := by
  rw [bound, h]
  rfl

theorem bound_of_above {p : GoString} {n : Nat} (h : Denotes p n) (hn : 65535 < n) :
    bound p = none := by
  have hatoi : p.trimSpace.atoi = if n < 2 ^ 63 then some (.ofNat n) else none := by
    rcases h with hdecimal | ⟨s, hplus, hdecimal⟩
    · rw [GoString.atoi_of_isDigit (GoString.isDigit_of_decimal hdecimal), hdecimal]
      rfl
    · rw [hplus, GoString.atoi_plus, hdecimal]
      rfl
  rw [bound, hatoi]
  by_cases hlt : n < 2 ^ 63
  · rw [if_pos hlt]
    refine if_pos (.inr ?_)
    rw [gt_iff_lt, Int64.lt_iff_toInt_lt, Int64.toInt_ofNat_of_lt hlt]
    simp only [Int64.reduceToInt]
    omega
  · rw [if_neg hlt]

theorem mapM_eq_none {parts : List GoString} {p : GoString} (hp : p ∈ parts) (h : bound p = none) :
    parts.mapM bound = none := by
  induction parts with
  | nil => cases hp
  | cons q parts ih =>
      rw [List.mapM_cons]
      rcases List.mem_cons.mp hp with rfl | hp
      · rw [h]
        rfl
      · rw [ih hp]
        cases bound q <;> rfl

theorem rejected_of_bound {raw p : GoString} (hp : p ∈ raw.split 45) (h : bound p = none)
    (rng : PortRange) : unmarshalText rng raw = (some (invalidRange raw), rng) := by
  simp only [unmarshalText, mapM_eq_none hp h]
  split_ifs <;> rfl

theorem rejected_of_hyphens {raw : GoString} (h : 1 < raw.count 45) (rng : PortRange) :
    unmarshalText rng raw = (some (invalidRange raw), rng) := by
  have hlen := GoString.length_split raw 45
  rw [unmarshalText, if_pos (.inl (by omega))]

/-- Ranges and their texts: a range comes back from its text, also if it was read from another one
first, and a text with two hyphens, with an empty bound or with one above 65535 is rejected and
leaves the receiver alone. -/
theorem text_round_trip :
    (∀ rng rng' : PortRange, unmarshalText rng' (marshalText rng) = (none, rng)) ∧
    (∀ (raw : GoString) (rng₀ rng : PortRange), unmarshalText rng₀ raw = (none, rng) →
      ∀ rng', unmarshalText rng' (marshalText rng) = (none, rng)) ∧
    ∀ raw : GoString, 1 < raw.count 45 ∨ (∃ p ∈ raw.split 45, p.trimSpace = []) ∨
        (∃ p ∈ raw.split 45, ∃ n, Denotes p n ∧ 65535 < n) →
      ∀ rng, unmarshalText rng raw = (some (invalidRange raw), rng) := by
  refine ⟨unmarshal_marshal, fun _ _ rng _ ↦ unmarshal_marshal rng, fun raw hraw rng ↦ ?_⟩
  rcases hraw with hhyphens | ⟨p, hp, hempty⟩ | ⟨p, hp, n, hdenotes, hn⟩
  · exact rejected_of_hyphens hhyphens rng
  · exact rejected_of_bound hp (bound_of_empty hempty) rng
  · exact rejected_of_bound hp (bound_of_above hdenotes hn) rng

end PortRange

end CommonLib.IPAM
