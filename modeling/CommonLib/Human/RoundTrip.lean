import CommonLib.Human.Size

/-!
# Sizes written and read again

A size comes back as what its text stands for, which is at most a twentieth of the unit away from
it.  Just below 16 exabytes the text stands for 2 ^ 64, which is not refused.
-/

namespace CommonLib.Human

open CommonLib.Reasoning CommonLib.Reasoning.UTF8

/-! ## What a text stands for -/

theorem SizeUnit.factor_pos_rat (unit : SizeUnit) : (0 : ℚ) < unit.factor := by
  exact_mod_cast unit.factor_pos

/-- The exact number of bytes that the text of a size stands for. -/
def shown (bytes : UInt64) : ℚ := printed bytes / 10 * (SizeUnit.of bytes.toNat).factor

section Printed

variable {x : UInt64} {unit : SizeUnit}

theorem shown_eq (hunit : SizeUnit.of x.toNat = unit) : shown x = printed x * unit.factor / 10 := by
  rw [shown, hunit]
  ring

theorem printed_bounds (hunit : SizeUnit.of x.toNat = unit) :
    10 * (x.toNat : ℚ) - unit.factor / 2 ≤ printed x * unit.factor ∧
      (printed x : ℚ) * unit.factor ≤ 10 * x.toNat + unit.factor / 2 := by
  have hpos := unit.factor_pos_rat
  have hprinted : |(printed x : ℚ) - 10 * (x.toNat / (SizeUnit.of x.toNat).factor)| ≤ 1 / 2 :=
    abs_roundHalfEven_sub_le (by positivity)
  rw [hunit, abs_le, ← mul_div_assoc] at hprinted
  obtain ⟨hlow, hhigh⟩ := hprinted
  constructor
  · rw [neg_le_sub_iff_le_add, div_le_iff₀ hpos] at hlow
    linarith
  · rw [tsub_le_iff_left, ← sub_le_iff_le_add, le_div_iff₀ hpos] at hhigh
    linarith

theorem abs_shown_sub_le (hunit : SizeUnit.of x.toNat = unit) :
    |shown x - x.toNat| ≤ unit.factor / 20 := by
  obtain ⟨hlow, hhigh⟩ := printed_bounds hunit
  rw [shown_eq hunit, abs_le]
  constructor <;> linarith

theorem printed_le {k : Nat} (hunit : SizeUnit.of x.toNat = unit)
    (h : 20 * x.toNat < (2 * k + 1) * unit.factor) : printed x ≤ k := by
  have hx : 20 * (x.toNat : ℚ) < (2 * k + 1) * unit.factor := by exact_mod_cast h
  have hprinted : (printed x : ℚ) * unit.factor < (k + 1) * unit.factor := by
    linarith [(printed_bounds hunit).2]
  have hlt := lt_of_mul_lt_mul_right hprinted unit.factor_pos_rat.le
  exact Nat.lt_succ_iff.mp (by exact_mod_cast hlt)

theorem le_printed {k : Nat} (hunit : SizeUnit.of x.toNat = unit)
    (h : k * unit.factor ≤ 10 * x.toNat) : k ≤ printed x := by
  have hpos := unit.factor_pos_rat
  have hx : k * (unit.factor : ℚ) ≤ 10 * x.toNat := by exact_mod_cast h
  have hprinted : k * (unit.factor : ℚ) < (printed x + 1) * unit.factor := by
    linarith [(printed_bounds hunit).1]
  have hlt := lt_of_mul_lt_mul_right hprinted hpos.le
  exact Nat.lt_succ_iff.mp (by exact_mod_cast hlt)

theorem printed_eq {k : Nat} (hunit : SizeUnit.of x.toNat = unit)
    (h : |k * (unit.factor : ℚ) - 10 * x.toNat| < unit.factor / 2) : printed x = k := by
  have hpos := unit.factor_pos_rat
  refine roundHalfEven_eq (by positivity) ?_
  have heq : (k : ℚ) - 10 * (x.toNat / unit.factor) =
      (k * unit.factor - 10 * x.toNat) / unit.factor := by
    field_simp
  rw [hunit, heq, abs_div, abs_of_pos hpos, div_lt_iff₀ hpos]
  linarith

theorem shown_b (hunit : SizeUnit.of x.toNat = .b) : shown x = x.toNat := by
  have hprinted : printed x = 10 * x.toNat := printed_eq hunit (by simp [SizeUnit.factor])
  rw [shown_eq hunit, hprinted]
  simp [SizeUnit.factor]

end Printed

theorem printed_exa_le {x : UInt64} (hunit : SizeUnit.of x.toNat = .exa) : printed x ≤ 160 := by
  have hx := x.toNat_lt
  exact printed_le hunit (by norm_num [SizeUnit.factor]; omega)

theorem printed_le_max (x : UInt64) : printed x ≤ 10240 := by
  rcases SizeUnit.lt_of x.toNat with hexa | hlt
  · exact (printed_exa_le hexa).trans (by decide)
  · exact printed_le rfl (by omega)

theorem reads_format (unicode : Unicode) (x : UInt64) :
    Reads unicode (formatSizeToHuman x) (printed x / 10) (SizeUnit.of x.toNat) := by
  have hprinted := printed_le_max x
  rw [formatSizeToHuman_eq]
  exact reads_tenths (by omega) _

theorem parse_format (unicode : Unicode) (conversion : Conversion) (x : UInt64) :
    parseSizeFromHuman unicode conversion (formatSizeToHuman x) =
      .ok (conversion.toUint64 (shown x)) :=
  (reads_format unicode x).parseSizeFromHuman_eq

/-! ## Up to 16 exabytes -/

theorem shown_nonneg (x : UInt64) : 0 ≤ shown x := by
  rw [shown]
  positivity

section Top

variable {x : UInt64} (h : 319 * 2 ^ 60 ≤ 20 * x.toNat)

include h

theorem of_eq_exa : SizeUnit.of x.toNat = .exa :=
  SizeUnit.of_eq (by norm_num [SizeUnit.factor]; omega) (.inl rfl)

/-- From here on, 16 exabytes are printed. -/
theorem shown_of_le : shown x = 2 ^ 64 := by
  have hunit := of_eq_exa h
  have hlt : 159 < printed x := by
    refine lt_roundHalfEven (by decide) ?_
    have hx : 319 * 2 ^ 60 ≤ 20 * (x.toNat : ℚ) := by exact_mod_cast h
    rw [hunit, ← mul_div_assoc, le_div_iff₀ (SizeUnit.factor_pos_rat _)]
    norm_num [SizeUnit.factor] at hx ⊢
    linarith
  have hprinted : printed x = 160 := by
    have := printed_exa_le hunit
    omega
  rw [shown_eq hunit, hprinted]
  norm_num [SizeUnit.factor]

end Top

theorem shown_lt {x : UInt64} (h : 20 * x.toNat < 319 * 2 ^ 60) : shown x < 2 ^ 64 := by
  by_cases hunit : SizeUnit.of x.toNat = .exa
  · have hprinted : (printed x : ℚ) ≤ 159 := by
      exact_mod_cast printed_le hunit (by norm_num [SizeUnit.factor]; omega)
    rw [shown_eq hunit]
    norm_num [SizeUnit.factor]
    linarith
  · have hprinted : (printed x : ℚ) ≤ 10240 := by exact_mod_cast printed_le_max x
    have hfactor : ((SizeUnit.of x.toNat).factor : ℚ) ≤ 2 ^ 50 := by
      exact_mod_cast SizeUnit.factor_le hunit
    calc shown x = printed x * (SizeUnit.of x.toNat).factor / 10 := shown_eq rfl
      _ ≤ 10240 * 2 ^ 50 / 10 := by gcongr
      _ < 2 ^ 64 := by norm_num

/-- What is read lies at most a tenth of the unit from what was written. -/
theorem abs_floor_shown_sub_le (x : UInt64) :
    |(⌊shown x⌋₊ : ℚ) - x.toNat| ≤ (SizeUnit.of x.toNat).factor / 10 := by
  by_cases hunit : SizeUnit.of x.toNat = .b
  · rw [shown_b hunit, Nat.floor_natCast, sub_self, abs_zero]
    positivity
  · have hfactor : (1024 : ℚ) ≤ (SizeUnit.of x.toNat).factor := by
      exact_mod_cast SizeUnit.le_factor hunit
    have hshown := abs_shown_sub_le (x := x) rfl
    have hfloor := Nat.floor_le (shown_nonneg x)
    have hlt := Nat.lt_floor_add_one (shown x)
    rw [abs_le] at hshown ⊢
    constructor <;> linarith

/-- A conversion with one result for all that does not fit. -/
def Conversion.yielding (outOfRange : UInt64) : Conversion where
  toUint64 q := if q < 2 ^ 64 then .ofNat ⌊q⌋₊ else outOfRange
  fits q hnonneg hlt := by
    have hfloor : ⌊q⌋₊ < 2 ^ 64 := (Nat.floor_lt hnonneg).mpr (by exact_mod_cast hlt)
    rw [if_pos hlt, UInt64.toNat_ofNat_of_lt' hfloor]

theorem Conversion.yielding_of_le {q : ℚ} (h : 2 ^ 64 ≤ q) (outOfRange : UInt64) :
    (yielding outOfRange).toUint64 q = outOfRange :=
  if_neg (not_lt.mpr h)

/-- A result of at most 8 exabytes is far from what was written. -/
theorem lt_abs_of_le {x y : UInt64} (hx : 319 * 2 ^ 60 ≤ 20 * x.toNat) (hy : y.toNat ≤ 2 ^ 63) :
    (SizeUnit.of x.toNat).factor / 10 < |(y.toNat : ℚ) - x.toNat| := by
  have hx' : 319 * 2 ^ 60 ≤ 20 * (x.toNat : ℚ) := by exact_mod_cast hx
  have hy' : (y.toNat : ℚ) ≤ 2 ^ 63 := by exact_mod_cast hy
  rw [of_eq_exa hx, lt_abs]
  right
  norm_num [SizeUnit.factor]
  linarith

/-- A text is read as the integer part of its bytes, and refused from 2 ^ 64 of them on, exactly if
it has fewer; and a size comes back up to a tenth of its unit, whatever a conversion makes of
numbers out of range, exactly below 15.95 exabytes. -/
theorem parse_exact_iff (unicode : Unicode) :
    (∀ (conversion : Conversion) (s : GoString),
      ((∀ n, parseSizeFromHuman unicode conversion s = .ok n →
          ∃ v unit, Reads unicode s v unit ∧ n.toNat = ⌊v * unit.factor⌋₊) ∧
        ∀ v unit, Reads unicode s v unit → 2 ^ 64 ≤ v * unit.factor →
          ∃ err, parseSizeFromHuman unicode conversion s = .error err) ↔
      ∀ v unit, Reads unicode s v unit → v * unit.factor < 2 ^ 64) ∧
    ∀ x : UInt64,
      (∀ conversion, ∃ y, parseSizeFromHuman unicode conversion (formatSizeToHuman x) = .ok y ∧
        |(y.toNat : ℚ) - x.toNat| ≤ (SizeUnit.of x.toNat).factor / 10) ↔
      20 * x.toNat < 319 * 2 ^ 60 := by
  refine ⟨fun conversion s ↦ ⟨fun h v unit hreads ↦ ?_, fun h ↦ ⟨fun n hn ↦ ?_, ?_⟩⟩,
    fun x ↦ ⟨fun h ↦ ?_, fun h conversion ↦ ?_⟩⟩
  · by_contra hge
    obtain ⟨err, herr⟩ := h.2 v unit hreads (not_lt.mp hge)
    rw [hreads.parseSizeFromHuman_eq] at herr
    cases herr
  · obtain ⟨v, unit, hreads, rfl⟩ := reads_of_parseSizeFromHuman hn
    exact ⟨v, unit, hreads, conversion.fits _ hreads.bytes_nonneg (h v unit hreads)⟩
  · intro v unit hreads hge
    exact absurd (h v unit hreads) (not_lt.mpr hge)
  · by_contra hge
    obtain ⟨y, hy, hnear⟩ := h (.yielding 0)
    cases (parse_format unicode (.yielding 0) x).symm.trans hy
    rw [shown_of_le (not_lt.mp hge), Conversion.yielding_of_le le_rfl] at hnear
    exact absurd hnear (not_le.mpr (lt_abs_of_le (not_lt.mp hge) (by decide)))
  · refine ⟨_, parse_format unicode conversion x, ?_⟩
    rw [conversion.fits _ (shown_nonneg x) (shown_lt h)]
    exact abs_floor_shown_sub_le x

/-- Tables without a letter beyond ASCII. -/
def ascii : Unicode where
  isLetter
    | [b] => isUpper b || isLower b
    | _ => false
  toLower
    | [b] => [if isUpper b then b + 32 else b]
    | w => w
  isLetter_ascii _ _ := rfl
  toLower_ascii _ _ := rfl

/-- The text of the largest size has 2 ^ 64 bytes and is never refused; where the conversion yields
at most 2 ^ 63, it comes back as half of itself or less. -/
theorem sixteen_exabytes_accepted :
    Reads ascii (.ofASCII "16eb") 16 .exa ∧ 2 ^ 64 ≤ (16 * SizeUnit.exa.factor : ℚ) ∧
      (∀ conversion, ∃ n, parseSizeFromHuman ascii conversion (.ofASCII "16eb") = .ok n) ∧
      formatSizeToHuman 0xFFFFFFFFFFFFFFFF = .ofASCII "16eb" ∧
      ∀ outOfRange : UInt64, outOfRange.toNat ≤ 2 ^ 63 →
        parseSizeFromHuman ascii (.yielding outOfRange) (.ofASCII "16eb") = .ok outOfRange ∧
        SizeUnit.exa.factor / 10 <
          |(outOfRange.toNat : ℚ) - (0xFFFFFFFFFFFFFFFF : UInt64).toNat| := by
  have hreads : Reads ascii (.ofASCII "16eb") 16 .exa := by
    have h := @reads_tenths ascii 160 (by decide) .exa
    norm_num at h
    exact h
  have hbytes : 2 ^ 64 ≤ (16 * SizeUnit.exa.factor : ℚ) := by norm_num [SizeUnit.factor]
  refine ⟨hreads, hbytes, fun _ ↦ ⟨_, hreads.parseSizeFromHuman_eq⟩, by decide +kernel,
    fun outOfRange hle ↦ ⟨?_, ?_⟩⟩
  · rw [hreads.parseSizeFromHuman_eq, Conversion.yielding_of_le hbytes]
  · have hfar := @lt_abs_of_le 0xFFFFFFFFFFFFFFFF outOfRange (by decide) hle
    rwa [of_eq_exa (by decide)] at hfar

/-! ## Saving again -/

section Saving

variable {x y : UInt64}

/-- Within its unit, what is read is printed with the same tenths. -/
theorem shown_of_floor_within {unit : SizeUnit} (hunit : SizeUnit.of x.toNat = unit)
    (hne : unit ≠ .b) (hx : x.toNat ≠ 0) (hwithin : unit = .exa ∨ printed x < 10240)
    (hy : y.toNat = ⌊shown x⌋₊) : shown y = shown x := by
  have hfactor : (1024 : ℚ) ≤ unit.factor := by exact_mod_cast SizeUnit.le_factor hne
  have hprinted : (10 : ℚ) ≤ printed x := by
    have hle := SizeUnit.of_le hx
    rw [hunit] at hle
    exact_mod_cast le_printed hunit (by omega)
  have hshown := shown_eq hunit
  have hfloor := Nat.floor_le (shown_nonneg x)
  have hlt := Nat.lt_floor_add_one (shown x)
  rw [← hy] at hfloor hlt
  have hle : unit.factor ≤ y.toNat := by
    rw [hy]
    refine Nat.le_floor ?_
    calc (unit.factor : ℚ) = 10 * unit.factor / 10 := by ring
      _ ≤ printed x * unit.factor / 10 := by gcongr
      _ = shown x := hshown.symm
  have hunit' : SizeUnit.of y.toNat = unit := by
    refine SizeUnit.of_eq hle (hwithin.imp_right fun hprinted ↦ ?_)
    have hprinted : (printed x : ℚ) ≤ 10239 := by exact_mod_cast Nat.le_of_lt_succ hprinted
    have hylt : (y.toNat : ℚ) < 1024 * unit.factor :=
      calc (y.toNat : ℚ) ≤ printed x * unit.factor / 10 := hfloor.trans hshown.le
        _ ≤ 10239 * unit.factor / 10 := by gcongr
        _ < 1024 * unit.factor := by linarith
    exact_mod_cast hylt
  have heq : printed y = printed x := by
    -- The part cut off is less than a byte, which is less than half a tenth of the unit.
    refine printed_eq hunit' ?_
    rw [abs_lt]
    constructor <;> linarith
  rw [shown_eq hunit', heq, hshown]

/-- 1024 of a unit are one of the next. -/
theorem shown_of_floor_carry {unit : SizeUnit} (hunit : SizeUnit.of x.toNat = unit)
    (hexa : unit ≠ .exa) (hprinted : printed x = 10240) (hy : y.toNat = ⌊shown x⌋₊) :
    shown y = shown x := by
  obtain ⟨next, hnext⟩ := SizeUnit.exists_next hexa
  have hshown : shown x = next.factor := by
    rw [shown_eq hunit, hprinted, hnext]
    push_cast
    ring
  have hynext : y.toNat = next.factor := by rw [hy, hshown, Nat.floor_natCast]
  have hpos := next.factor_pos
  have hunit' : SizeUnit.of y.toNat = next := SizeUnit.of_eq hynext.ge (.inr (by omega))
  have hten : printed y = 10 := by
    refine printed_eq hunit' ?_
    rw [hynext]
    simpa using hpos
  rw [shown_eq hunit', hten, hshown]
  push_cast
  ring

/-- The text of what is read stands for the same. -/
theorem shown_of_floor (hy : y.toNat = ⌊shown x⌋₊) : shown y = shown x := by
  by_cases hb : SizeUnit.of x.toNat = .b
  · -- Bytes are printed without decimals.
    have heq : y = x := by
      rw [shown_b hb, Nat.floor_natCast] at hy
      exact UInt64.toNat_inj.mp hy
    rw [heq]
  · have hx : x.toNat ≠ 0 := fun hzero ↦ hb (by rw [hzero]; rfl)
    by_cases hwithin : SizeUnit.of x.toNat = .exa ∨ printed x < 10240
    · exact shown_of_floor_within rfl hb hx hwithin hy
    · rw [not_or, not_lt] at hwithin
      exact shown_of_floor_carry rfl hwithin.1 ((printed_le_max x).antisymm hwithin.2) hy

end Saving

section Reload

variable (unicode : Unicode) (conversion : Conversion)
  (asUint64 : GoString → Except String UInt64)

/-- A configuration is saved and loaded again; `asUint64` is what `unmarshal` would store into a
number. -/
def reload (s : UInt64) : Except String UInt64 :=
  unmarshalYAML unicode conversion ⟨.ok (marshalYAML s), asUint64 (marshalYAML s)⟩

theorem reload_eq (s : UInt64) : reload unicode conversion asUint64 s =
    parseSizeFromHuman unicode conversion (formatSizeToHuman s) := by
  have hne : formatSizeToHuman s ≠ [] := by
    rw [formatSizeToHuman_eq]
    exact List.append_ne_nil_of_right_ne_nil _ (SizeUnit.suffix_lower _).1
  exact if_neg hne

/-- A size below 15 exabytes changes at most the first time that it is saved. -/
theorem saved_size_stays {x : UInt64} (hx : x.toNat < 15 * 2 ^ 60) :
    ∃ y, parseSizeFromHuman unicode conversion (formatSizeToHuman x) = .ok y ∧
      parseSizeFromHuman unicode conversion (formatSizeToHuman y) = .ok y ∧
      ∀ n, (fun s ↦ s >>= reload unicode conversion asUint64)^[n + 1] (.ok x) = .ok y := by
  have hfits := conversion.fits _ (shown_nonneg x) (shown_lt (by omega))
  have hfirst := parse_format unicode conversion x
  have hagain := parse_format unicode conversion (conversion.toUint64 (shown x))
  rw [shown_of_floor hfits] at hagain
  refine ⟨_, hfirst, hagain, fun n ↦ ?_⟩
  rw [Function.iterate_succ_apply]
  have hreload : (Except.ok x >>= reload unicode conversion asUint64) =
      .ok (conversion.toUint64 (shown x)) :=
    (reload_eq unicode conversion asUint64 x).trans hfirst
  rw [hreload]
  exact Function.iterate_fixed ((reload_eq unicode conversion asUint64 _).trans hagain) n

end Reload

theorem saved_size_stays_kilobytes :
    (1500 : UInt64).toNat < 15 * 2 ^ 60 ∧
      ∃ y, parseSizeFromHuman ascii (.yielding 0) (formatSizeToHuman 1500) = .ok y ∧
        parseSizeFromHuman ascii (.yielding 0) (formatSizeToHuman y) = .ok y ∧
        ∀ n, (fun s ↦ s >>= reload ascii (.yielding 0) fun _ ↦ .error "")^[n + 1] (.ok 1500) = .ok y :=
  ⟨by decide, saved_size_stays ascii (.yielding 0) (fun _ ↦ .error "") (by decide)⟩

end CommonLib.Human
