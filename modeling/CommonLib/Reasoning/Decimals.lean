import CommonLib.Reasoning.Text

/-! Decimal fractions as texts, over exact rational numbers. -/

namespace CommonLib.Reasoning

/-! ## Rounding -/

/-- The nearest natural number; the even one of two. -/
def roundHalfEven (q : ℚ) : Nat :=
  let n := ⌊q⌋₊
  if q - n < 1 / 2 ∨ (q - n = 1 / 2 ∧ n % 2 = 0) then n else n + 1

theorem abs_roundHalfEven_sub_le {q : ℚ} (hq : 0 ≤ q) : |(roundHalfEven q : ℚ) - q| ≤ 1 / 2 := by
  have hfloor := Nat.floor_le hq
  have hlt := Nat.lt_floor_add_one q
  rw [roundHalfEven, abs_le]
  split
  next hdown =>
    rcases hdown with hdown | ⟨htie, -⟩
    · constructor <;> linarith
    · constructor <;> linarith
  next hup =>
    rw [not_or, not_lt] at hup
    push_cast
    constructor <;> linarith [hup.1]

theorem roundHalfEven_eq {q : ℚ} {n : Nat} (hq : 0 ≤ q) (h : |(n : ℚ) - q| < 1 / 2) :
    roundHalfEven q = n := by
  have hround := abs_roundHalfEven_sub_le hq
  rw [abs_le] at hround
  rw [abs_lt] at h
  have hle : roundHalfEven q < n + 1 := by
    have : (roundHalfEven q : ℚ) < n + 1 := by linarith
    exact_mod_cast this
  have hge : n < roundHalfEven q + 1 := by
    have : (n : ℚ) < roundHalfEven q + 1 := by linarith
    exact_mod_cast this
  omega

/-- An odd number and a half goes up. -/
theorem lt_roundHalfEven {q : ℚ} {n : Nat} (hodd : n % 2 = 1) (h : n + 1 / 2 ≤ q) :
    n < roundHalfEven q := by
  have hfloor : n ≤ ⌊q⌋₊ := Nat.le_floor (by linarith)
  rw [roundHalfEven]
  split
  next hdown =>
    -- Only at `n` itself does the tie matter.
    rcases hfloor.lt_or_eq with hlt | heq
    · exact hlt
    · rw [← heq] at hdown
      rcases hdown with hdown | ⟨-, heven⟩
      · linarith
      · omega
  next => omega

namespace GoString

/-! ## Writing -/

/-- `strconv.FormatFloat` of a number that is not negative, with one decimal. -/
def formatFloat (val : ℚ) : GoString :=
  let r := roundHalfEven (10 * val)
  formatDecimal (r / 10) ++ [46, digit (r % 10)]

def trimSuffix (s suffix : GoString) : GoString :=
  if suffix.isSuffixOf s then s.take (s.length - suffix.length) else s

/-- So many tenths, with a decimal only where there is one. -/
def tenths (r : Nat) : GoString :=
  if r % 10 = 0 then formatDecimal (r / 10) else formatDecimal (r / 10) ++ [46, digit (r % 10)]

theorem trimSuffix_append (s suffix : GoString) : trimSuffix (s ++ suffix) suffix = s := by
  rw [trimSuffix, if_pos (List.isSuffixOf_iff_suffix.mpr (List.suffix_append s suffix)),
    List.length_append, Nat.add_sub_cancel, List.take_left]

theorem trimSuffix_of_ne {s tail suffix : GoString} (hlen : tail.length = suffix.length)
    (h : tail ≠ suffix) : trimSuffix (s ++ tail) suffix = s ++ tail := by
  rw [trimSuffix, if_neg]
  intro hsuffix
  obtain ⟨t, ht⟩ := List.isSuffixOf_iff_suffix.mp hsuffix
  exact h (List.append_inj_right' ht hlen.symm).symm

theorem trimSuffix_formatFloat (val : ℚ) :
    (formatFloat val).trimSuffix (ofASCII ".0") = tenths (roundHalfEven (10 * val)) := by
  rw [formatFloat, tenths]
  split
  next hzero =>
    rw [hzero]
    exact trimSuffix_append _ _
  next hne =>
    refine trimSuffix_of_ne rfl fun heq ↦ hne ?_
    have hdigit : digit (roundHalfEven (10 * val) % 10) = digit 0 :=
      (List.cons.inj (List.cons.inj heq).2).1
    have htoNat := congrArg UInt8.toNat hdigit
    rw [digit_toNat (Nat.mod_lt _ (by decide)), digit_toNat (by decide)] at htoNat
    omega

theorem mem_tenths {r : Nat} {c : UInt8} (h : c ∈ tenths r) : IsDigit c ∨ c = 46 := by
  rw [tenths] at h
  split at h
  next => exact .inl (isDigit_of_mem_formatDecimal h)
  next =>
    rcases List.mem_append.mp h with h | h
    · exact .inl (isDigit_of_mem_formatDecimal h)
    · rcases List.mem_pair.mp h with rfl | rfl
      · exact .inr rfl
      · exact .inl (isDigit_digit (Nat.mod_lt r (by decide)))

/-! ## Reading -/

/-- An underscore stands between digits; `saw` is the character before. -/
def underscoreOK : UInt8 → GoString → Bool
  | saw, [] => saw ≠ 95
  | saw, c :: s =>
      if IsDigit c then underscoreOK 48 s
      else if c = 95 then saw = 48 && underscoreOK 95 s
      else saw ≠ 95 && underscoreOK 33 s

def digitsValue (s : GoString) : Nat := s.foldl (fun n c ↦ 10 * n + (c.toNat - 48)) 0

/-- From half way to 2 ^ 1024 on, a number is out of the range of a `float64`. -/
def parseUnsigned (s : GoString) : Option ℚ :=
  if (∀ c ∈ s, IsDigit c ∨ c = 46 ∨ c = 95) ∧ s.count 46 ≤ 1 ∧ (∃ c ∈ s, IsDigit c) ∧
      underscoreOK 94 s then
    let whole := (s.takeWhile (· ≠ 46)).filter (IsDigit ·)
    let fraction := (s.dropWhile (· ≠ 46)).filter (IsDigit ·)
    let v : ℚ := digitsValue (whole ++ fraction) / 10 ^ fraction.length
    if v < 2 ^ 1024 - 2 ^ 970 then some v else none
  else none

/-- `strconv.ParseFloat` of a text without letters. -/
def parseFloat (s : GoString) : Option ℚ :=
  if s.head? = some 45 then (parseUnsigned s.tail).map (- ·)
  else parseUnsigned (if s.head? = some 43 then s.tail else s)

theorem underscoreOK_of_not_mem {s : GoString} {saw : UInt8} (hsaw : saw ≠ 95) (h : 95 ∉ s) :
    underscoreOK saw s = true := by
  induction s generalizing saw with
  | nil => simpa [underscoreOK] using hsaw
  | cons c s ih =>
      have hc : c ≠ 95 := fun heq ↦ h (heq ▸ List.mem_cons_self)
      have hs : 95 ∉ s := fun hmem ↦ h (List.mem_cons_of_mem c hmem)
      rw [underscoreOK, if_neg hc]
      split
      next => exact ih (by decide) hs
      next =>
        rw [ih (by decide) hs]
        simpa using hsaw

theorem digitsValue_formatDecimal (n : Nat) : digitsValue (formatDecimal n) = n := by
  have h := decimal_formatDecimal n
  rw [decimal, Option.ite_none_right_eq_some] at h
  exact Option.some.inj h.2

theorem digitsValue_concat (s : GoString) {d : Nat} (hd : d < 10) :
    digitsValue (s ++ [digit d]) = 10 * digitsValue s + d := by
  rw [digitsValue, List.foldl_append, ← digitsValue, List.foldl_cons, List.foldl_nil,
    digit_toNat hd]
  omega

/-- Digits, and perhaps a point and more of them. -/
theorem parseUnsigned_of_isDigit {whole tail fraction : GoString} (hne : whole ≠ [])
    (hwhole : ∀ c ∈ whole, IsDigit c) (hfraction : ∀ c ∈ fraction, IsDigit c)
    (htail : tail = [] ∧ fraction = [] ∨ tail = 46 :: fraction)
    (hrange : (digitsValue (whole ++ fraction) / 10 ^ fraction.length : ℚ) < 2 ^ 1024 - 2 ^ 970) :
    parseUnsigned (whole ++ tail) =
      some (digitsValue (whole ++ fraction) / 10 ^ fraction.length : ℚ) := by
  have hpoint : ∀ c, IsDigit c → c ≠ 46 := fun c hc heq ↦ absurd (heq ▸ hc) (by decide)
  have hwhole' : ∀ c ∈ whole, decide (c ≠ 46) = true := fun c hc ↦
    decide_eq_true (hpoint c (hwhole c hc))
  have hmem : ∀ c ∈ whole ++ tail, IsDigit c ∨ c = 46 := by
    intro c hc
    rcases List.mem_append.mp hc with hc | hc
    · exact .inl (hwhole c hc)
    · rcases htail with ⟨rfl, -⟩ | rfl
      · cases hc
      · rcases List.mem_cons.mp hc with rfl | hc
        · exact .inr rfl
        · exact .inl (hfraction c hc)
  have hcount : ∀ s : GoString, (∀ c ∈ s, IsDigit c) → s.count 46 = 0 := fun s hs ↦
    List.count_eq_zero_of_not_mem fun h ↦ hpoint 46 (hs 46 h) rfl
  have htake : (whole ++ tail).takeWhile (fun c ↦ decide (c ≠ 46)) = whole := by
    rw [List.takeWhile_append_of_pos hwhole']
    rcases htail with ⟨rfl, -⟩ | rfl <;> simp
  have hdrop : (whole ++ tail).dropWhile (fun c ↦ decide (c ≠ 46)) = tail := by
    rw [List.dropWhile_append_of_pos hwhole']
    rcases htail with ⟨rfl, -⟩ | rfl <;> simp
  have hfilter : tail.filter (fun c ↦ decide (IsDigit c)) = fraction := by
    rcases htail with ⟨rfl, rfl⟩ | rfl
    · rfl
    · rw [List.filter_cons_of_neg (by decide), List.filter_eq_self.mpr (by simpa using hfraction)]
  rw [parseUnsigned, if_pos]
  · rw [htake, hdrop, hfilter, List.filter_eq_self.mpr (by simpa using hwhole), if_pos hrange]
  · refine ⟨fun c hc ↦ (hmem c hc).imp_right .inl, ?_, ?_, ?_⟩
    · rw [List.count_append, hcount whole hwhole]
      rcases htail with ⟨rfl, -⟩ | rfl
      · decide
      · rw [List.count_cons_self, hcount fraction hfraction]
    · obtain ⟨c, rest, rfl⟩ := List.exists_cons_of_ne_nil hne
      exact ⟨c, List.mem_cons_self, hwhole c List.mem_cons_self⟩
    · refine underscoreOK_of_not_mem (by decide) fun h ↦ ?_
      rcases hmem 95 h with h | h
      · exact absurd h (by decide)
      · exact absurd h (by decide)

theorem parseFloat_of_head {s : GoString} (hminus : s.head? ≠ some 45) (hplus : s.head? ≠ some 43) :
    parseFloat s = parseUnsigned s := by
  rw [parseFloat, if_neg hminus, if_neg hplus]

theorem parseFloat_tenths {r : Nat} (h : r < 2 ^ 64) :
    parseFloat (tenths r) = some (r / 10 : ℚ) := by
  have hhead : ∀ b, ¬ (IsDigit b ∨ b = 46) → (tenths r).head? ≠ some b :=
    fun b hb hhead ↦ hb (mem_tenths (List.mem_of_mem_head? hhead))
  have hrange : (r / 10 : ℚ) < 2 ^ 1024 - 2 ^ 970 :=
    calc (r / 10 : ℚ) ≤ r := div_le_self (Nat.cast_nonneg r) (by norm_num)
      _ < 2 ^ 64 := by exact_mod_cast h
      _ ≤ 2 ^ 970 := pow_le_pow_right₀ (by norm_num) (by norm_num)
      _ ≤ 2 ^ 970 * (2 ^ 54 - 1) := le_mul_of_one_le_right (by positivity) (by norm_num)
      _ = 2 ^ 1024 - 2 ^ 970 := by rw [mul_sub, mul_one, ← pow_add]
  have hwhole : ∀ c ∈ formatDecimal (r / 10), IsDigit c := fun c hc ↦
    isDigit_of_mem_formatDecimal hc
  rw [parseFloat_of_head (hhead 45 (by decide)) (hhead 43 (by decide)), tenths]
  split
  next hzero =>
    have hvalue : (digitsValue (formatDecimal (r / 10) ++ []) / 10 ^ 0 : ℚ) = r / 10 := by
      rw [List.append_nil, digitsValue_formatDecimal, pow_zero, div_one]
      exact Nat.cast_div (Nat.dvd_of_mod_eq_zero hzero) (by norm_num)
    have hparse := parseUnsigned_of_isDigit (formatDecimal_ne_nil (r / 10)) hwhole
      (fun c hc ↦ absurd hc List.not_mem_nil) (.inl ⟨rfl, rfl⟩) (hvalue ▸ hrange)
    rwa [List.length_nil, hvalue, List.append_nil] at hparse
  next =>
    have hdigit : r % 10 < 10 := Nat.mod_lt r (by decide)
    have hvalue : (digitsValue (formatDecimal (r / 10) ++ [digit (r % 10)]) / 10 ^ 1 : ℚ) =
        r / 10 := by
      rw [digitsValue_concat _ hdigit, digitsValue_formatDecimal, Nat.div_add_mod, pow_one]
    have hparse := parseUnsigned_of_isDigit (formatDecimal_ne_nil (r / 10)) hwhole
      (fun c hc ↦ List.mem_singleton.mp hc ▸ isDigit_digit hdigit) (.inr rfl) (hvalue ▸ hrange)
    rwa [List.length_singleton, hvalue] at hparse

end GoString

end CommonLib.Reasoning
