import CommonLib.Reasoning.Decimals
import CommonLib.Reasoning.UTF8

/-!
# Sizes for people

A size is written with at most one decimal in the largest unit of which it has one, and read from a
number and a unit, over exact rational numbers.
-/

namespace CommonLib.Human

open CommonLib.Reasoning CommonLib.Reasoning.UTF8

inductive SizeUnit
  | b | kilo | mega | giga | tera | peta | exa
deriving DecidableEq

namespace SizeUnit

def factor : SizeUnit → Nat
  | b => 1
  | kilo => 2 ^ 10
  | mega => 2 ^ 20
  | giga => 2 ^ 30
  | tera => 2 ^ 40
  | peta => 2 ^ 50
  | exa => 2 ^ 60

/-- The unit as it is printed. -/
def suffix : SizeUnit → GoString
  | b => .ofASCII "b"
  | kilo => .ofASCII "kb"
  | mega => .ofASCII "mb"
  | giga => .ofASCII "gb"
  | tera => .ofASCII "tb"
  | peta => .ofASCII "pb"
  | exa => .ofASCII "eb"

def names : SizeUnit → List GoString
  | b => [.ofASCII "b"]
  | kilo => [.ofASCII "k", .ofASCII "kb", .ofASCII "kib"]
  | mega => [.ofASCII "m", .ofASCII "mb", .ofASCII "mib"]
  | giga => [.ofASCII "g", .ofASCII "gb", .ofASCII "gib"]
  | tera => [.ofASCII "t", .ofASCII "tb", .ofASCII "tib"]
  | peta => [.ofASCII "p", .ofASCII "pb", .ofASCII "pib"]
  | exa => [.ofASCII "e", .ofASCII "eb", .ofASCII "eib"]

def parse (multiple : GoString) : Option SizeUnit :=
  [exa, peta, tera, giga, mega, kilo, b].find? (·.names.contains multiple)

/-- The unit that is printed. -/
def of (bytes : Nat) : SizeUnit :=
  if exa.factor ≤ bytes then exa
  else if peta.factor ≤ bytes then peta
  else if tera.factor ≤ bytes then tera
  else if giga.factor ≤ bytes then giga
  else if mega.factor ≤ bytes then mega
  else if kilo.factor ≤ bytes then kilo
  else b

theorem parse_suffix (unit : SizeUnit) : parse unit.suffix = some unit := by
  cases unit <;> rfl

theorem factor_pos (unit : SizeUnit) : 0 < unit.factor := by
  cases unit <;> decide

theorem le_factor {unit : SizeUnit} (h : unit ≠ b) : 1024 ≤ unit.factor := by
  cases unit <;> first | exact absurd rfl h | decide

theorem factor_le {unit : SizeUnit} (h : unit ≠ exa) : unit.factor ≤ 2 ^ 50 := by
  cases unit <;> first | exact absurd rfl h | decide

theorem exists_next {unit : SizeUnit} (h : unit ≠ exa) :
    ∃ next : SizeUnit, next.factor = 1024 * unit.factor := by
  cases unit with
  | b => exact ⟨kilo, rfl⟩
  | kilo => exact ⟨mega, rfl⟩
  | mega => exact ⟨giga, rfl⟩
  | giga => exact ⟨tera, rfl⟩
  | tera => exact ⟨peta, rfl⟩
  | peta => exact ⟨exa, rfl⟩
  | exa => exact absurd rfl h

theorem of_le {bytes : Nat} (h : bytes ≠ 0) : (of bytes).factor ≤ bytes := by
  unfold of
  split_ifs <;> first | assumption | exact Nat.one_le_iff_ne_zero.mpr h

theorem lt_of (bytes : Nat) : of bytes = exa ∨ bytes < 1024 * (of bytes).factor := by
  unfold of
  split_ifs <;> simp only [factor, false_or, true_or] at * <;> omega

/-- The unit is the only one of which there is one and not 1024. -/
theorem of_eq {bytes : Nat} {unit : SizeUnit} (hle : unit.factor ≤ bytes)
    (hlt : unit = exa ∨ bytes < 1024 * unit.factor) : of bytes = unit := by
  unfold of
  split_ifs <;> cases unit <;>
    first | rfl | (simp only [factor, reduceCtorEq, false_or] at *; omega)

end SizeUnit

/-! ## Writing and reading -/

def formatSizeToHuman (bytes : UInt64) : GoString :=
  if bytes = 0 then .ofASCII "0b"
  else
    let unit := SizeUnit.of bytes.toNat
    let val : ℚ := bytes.toNat / unit.factor
    (GoString.formatFloat val).trimSuffix (.ofASCII ".0") ++ unit.suffix

def errInvalidUnits : String :=
  "value must be positive and must contains size valid units like m, Mb, GiB, p, EiB or gb"

/-- The conversion of a `float64`, whose result is only known if it fits. -/
structure Conversion where
  toUint64 : ℚ → UInt64
  fits : ∀ q, 0 ≤ q → q < 2 ^ 64 → (toUint64 q).toNat = ⌊q⌋₊

section

variable (unicode : Unicode) (conversion : Conversion)

/-- The text without white space around it and in lower case, cut at the first letter. -/
def cutAtLetter (s : GoString) : Option (GoString × GoString) :=
  let s := (chars s.trimSpace).map unicode.toLower
  if s.any unicode.isLetter then
    some ((s.takeWhile (! unicode.isLetter ·)).flatten,
      (s.dropWhile (! unicode.isLetter ·)).flatten)
  else none

def parseSizeFromHuman (s : GoString) : Except String UInt64 :=
  match cutAtLetter unicode s with
  | none => .error errInvalidUnits
  | some (vStr, multiple) =>
      match vStr.parseFloat with
      | none => .error errInvalidUnits
      | some v =>
          if v < 0 then .error errInvalidUnits
          else
            match SizeUnit.parse multiple with
            | none => .error errInvalidUnits
            | some unit => .ok (conversion.toUint64 (v * unit.factor))

/-- What `unmarshal` stores into a string and into a number. -/
structure Node where
  asString : Except String GoString
  asUint64 : Except String UInt64

def unmarshalYAML (node : Node) : Except String UInt64 :=
  match node.asString with
  | .error _ => node.asUint64
  | .ok vStr => if vStr = [] then .ok 0 else parseSizeFromHuman unicode conversion vStr

def marshalYAML (s : UInt64) : GoString := formatSizeToHuman s

end

/-! ## Texts of sizes -/

/-- The number and the unit of a text. -/
def Reads (unicode : Unicode) (s : GoString) (v : ℚ) (unit : SizeUnit) : Prop :=
  ∃ vStr multiple, cutAtLetter unicode s = some (vStr, multiple) ∧ vStr.parseFloat = some v ∧
    0 ≤ v ∧ SizeUnit.parse multiple = some unit

section

variable {unicode : Unicode} {conversion : Conversion}

theorem Reads.parseSizeFromHuman_eq {s : GoString} {v : ℚ} {unit : SizeUnit}
    (h : Reads unicode s v unit) :
    parseSizeFromHuman unicode conversion s = .ok (conversion.toUint64 (v * unit.factor)) := by
  obtain ⟨vStr, multiple, hcut, hv, hnonneg, hunit⟩ := h
  simp only [parseSizeFromHuman, hcut, hv, hunit, if_neg (not_lt.mpr hnonneg)]

theorem reads_of_parseSizeFromHuman {s : GoString} {n : UInt64}
    (h : parseSizeFromHuman unicode conversion s = .ok n) :
    ∃ v unit, Reads unicode s v unit ∧ n = conversion.toUint64 (v * unit.factor) := by
  unfold parseSizeFromHuman at h
  cases hcut : cutAtLetter unicode s with
  | none => simp [hcut] at h
  | some cut =>
      obtain ⟨vStr, multiple⟩ := cut
      cases hv : vStr.parseFloat with
      | none => simp [hcut, hv] at h
      | some v =>
          cases hunit : SizeUnit.parse multiple with
          | none => simp [hcut, hv, hunit] at h
          | some unit =>
              by_cases hneg : v < 0
              · simp [hcut, hv, hneg] at h
              · simp only [hcut, hv, hunit, if_neg hneg] at h
                exact ⟨v, unit, ⟨vStr, multiple, hcut, hv, not_lt.mp hneg, hunit⟩,
                  (Except.ok.inj h).symm⟩

theorem Reads.bytes_nonneg {s : GoString} {v : ℚ} {unit : SizeUnit} (h : Reads unicode s v unit) :
    0 ≤ v * unit.factor := by
  obtain ⟨-, -, -, -, hnonneg, -⟩ := h
  exact mul_nonneg hnonneg (Nat.cast_nonneg _)

theorem ascii_of_digit : ∀ c : UInt8, GoString.IsDigit c ∨ c = 46 →
    33 ≤ c ∧ c < 0x80 ∧ isUpper c = false ∧ isLower c = false := by
  decide +kernel

theorem ascii_of_lower : ∀ c : UInt8, isLower c = true → 33 ≤ c ∧ c < 0x80 ∧ isUpper c = false := by
  decide +kernel

theorem cutAtLetter_append {number multiple : GoString}
    (hnumber : ∀ c ∈ number, GoString.IsDigit c ∨ c = 46) (hne : multiple ≠ [])
    (hmultiple : ∀ c ∈ multiple, isLower c = true) :
    cutAtLetter unicode (number ++ multiple) = some (number, multiple) := by
  have hascii : ∀ c ∈ number ++ multiple, 33 ≤ c ∧ c < 0x80 ∧ isUpper c = false := by
    intro c hc
    rcases List.mem_append.mp hc with hc | hc
    · obtain ⟨hlow, hhigh, hupper, -⟩ := ascii_of_digit c (hnumber c hc)
      exact ⟨hlow, hhigh, hupper⟩
    · exact ascii_of_lower c (hmultiple c hc)
  have hnone : ∀ w ∈ number.map fun c ↦ [c], (! unicode.isLetter w) = true := by
    intro w hw
    obtain ⟨c, hc, rfl⟩ := List.mem_map.mp hw
    obtain ⟨-, hhigh, hupper, hlower⟩ := ascii_of_digit c (hnumber c hc)
    rw [unicode.isLetter_ascii c hhigh, hupper, hlower]
    rfl
  obtain ⟨c, rest, rfl⟩ := List.exists_cons_of_ne_nil hne
  have hfirst : unicode.isLetter [c] = true := by
    have hc := hmultiple c List.mem_cons_self
    rw [unicode.isLetter_ascii c (ascii_of_lower c hc).2.1, hc, Bool.or_true]
  rw [cutAtLetter, GoString.trimSpace_of_printable fun c hc ↦ ⟨(hascii c hc).1, (hascii c hc).2.1⟩,
    unicode.map_toLower fun c hc ↦ (hascii c hc).2, List.map_append, List.map_cons]
  simp only [List.takeWhile_append_of_pos hnone, List.dropWhile_append_of_pos hnone]
  simp [hfirst, ← List.flatMap_def]

theorem SizeUnit.suffix_lower (unit : SizeUnit) :
    unit.suffix ≠ [] ∧ ∀ c ∈ unit.suffix, isLower c = true := by
  cases unit <;> decide +kernel

theorem reads_tenths {r : Nat} (h : r < 2 ^ 64) (unit : SizeUnit) :
    Reads unicode (GoString.tenths r ++ unit.suffix) (r / 10) unit :=
  ⟨GoString.tenths r, unit.suffix,
    cutAtLetter_append (fun _ hc ↦ GoString.mem_tenths hc) unit.suffix_lower.1 unit.suffix_lower.2,
    GoString.parseFloat_tenths h, by positivity, SizeUnit.parse_suffix unit⟩

/-! ## The printed number -/

/-- The tenths of the unit that are printed. -/
def printed (bytes : UInt64) : Nat :=
  roundHalfEven (10 * (bytes.toNat / (SizeUnit.of bytes.toNat).factor : ℚ))

theorem formatSizeToHuman_eq (bytes : UInt64) : formatSizeToHuman bytes =
    GoString.tenths (printed bytes) ++ (SizeUnit.of bytes.toNat).suffix := by
  rw [formatSizeToHuman]
  split
  next hzero =>
    rw [hzero]
    decide +kernel
  next =>
    dsimp only
    rw [GoString.trimSuffix_formatFloat]
    rfl

end

end CommonLib.Human
