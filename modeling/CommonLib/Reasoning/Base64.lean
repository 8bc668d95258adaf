import CommonLib.Reasoning.GoString

/-!
# Base64

Four letters for every three bytes: in the standard alphabet with padding, and in the one for URLs
without.
-/

namespace CommonLib.Reasoning.Base64

/-- The letter of a group of six bits. -/
def letter (n : Nat) : UInt8 :=
  if n < 26 then .ofNat (n + 65)
  else if n < 52 then .ofNat (n + 71)
  else if n < 62 then .ofNat (n - 4)
  else if n = 62 then 43
  else 47

/-- The six bits of a letter; `none` for a byte that is not one. -/
def value (c : UInt8) : Option Nat :=
  let n := c.toNat
  if 65 ≤ n ∧ n ≤ 90 then some (n - 65)
  else if 97 ≤ n ∧ n ≤ 122 then some (n - 71)
  else if 48 ≤ n ∧ n ≤ 57 then some (n + 4)
  else if n = 43 then some 62
  else if n = 47 then some 63
  else none

def pad : UInt8 := 61

theorem value_letter : ∀ n < 64, value (letter n) = some n := by decide

theorem letter_ne_pad : ∀ n < 64, letter n ≠ pad := by decide

def isNewline (c : UInt8) : Bool := c == 10 || c == 13

theorem isNewline_letter (n : Nat) : isNewline (letter n) = false := by
  have hletters : ∀ n < 64, isNewline (letter n) = false := by decide
  by_cases hn : n < 64
  · exact hletters n hn
  · -- whatever is too large has the last letter
    rw [letter, if_neg (by omega), if_neg (by omega), if_neg (by omega), if_neg (by omega)]
    rfl

/-- `StdEncoding.EncodeToString`. -/
def encode : List UInt8 → GoString
  | [] => []
  | [a] => [letter (a.toNat / 4), letter (a.toNat % 4 * 16), pad, pad]
  | [a, b] =>
      [letter (a.toNat / 4), letter (a.toNat % 4 * 16 + b.toNat / 16),
        letter (b.toNat % 16 * 4), pad]
  | a :: b :: c :: rest =>
      letter (a.toNat / 4) :: letter (a.toNat % 4 * 16 + b.toNat / 16) ::
        letter (b.toNat % 16 * 4 + c.toNat / 64) :: letter (c.toNat % 64) :: encode rest

/-- The groups of four letters, once the line breaks are dropped. Padding ends the text, and
the bits it cuts off need not be zero. -/
def decodeGroups : GoString → Option (List UInt8)
  | [] => some []
  | a :: b :: c :: d :: rest => do
      let x ← value a
      let y ← value b
      let first := UInt8.ofNat (x * 4 + y / 16)
      if c = pad then
        if d = pad ∧ rest = [] then some [first] else none
      else
        let z ← value c
        let second := UInt8.ofNat (y % 16 * 16 + z / 4)
        if d = pad then
          if rest = [] then some [first, second] else none
        else
          let w ← value d
          let bytes ← decodeGroups rest
          some (first :: second :: UInt8.ofNat (z % 4 * 64 + w) :: bytes)
  | _ => none

/-- `StdEncoding.DecodeString`, which skips line breaks wherever they stand. -/
def decode (s : GoString) : Option (List UInt8) := decodeGroups (s.filter fun c ↦ !isNewline c)

theorem ofNat_eq {b : UInt8} {n : Nat} (h : n = b.toNat) : UInt8.ofNat n = b := by
  rw [h, UInt8.ofNat_toNat]

section Bits

variable (a b c : UInt8)

theorem first_bits :
    UInt8.ofNat (a.toNat / 4 * 4 + (a.toNat % 4 * 16 + b.toNat / 16) / 16) = a := by
  have hb : b.toNat < 256 := b.toNat_lt
  exact ofNat_eq (by omega)

theorem second_bits :
    UInt8.ofNat ((a.toNat % 4 * 16 + b.toNat / 16) % 16 * 16 +
      (b.toNat % 16 * 4 + c.toNat / 64) / 4) = b := by
  have hb : b.toNat < 256 := b.toNat_lt
  have hc : c.toNat < 256 := c.toNat_lt
  exact ofNat_eq (by omega)

theorem third_bits :
    UInt8.ofNat ((b.toNat % 16 * 4 + c.toNat / 64) % 4 * 64 + c.toNat % 64) = c := by
  have hc : c.toNat < 256 := c.toNat_lt
  exact ofNat_eq (by omega)

/-- At the end of the bytes, with zeros for what is missing. -/
theorem first_bits_last : UInt8.ofNat (a.toNat / 4 * 4 + a.toNat % 4 * 16 / 16) = a :=
  ofNat_eq (by omega)

theorem second_bits_last :
    UInt8.ofNat ((a.toNat % 4 * 16 + b.toNat / 16) % 16 * 16 + b.toNat % 16 * 4 / 4) = b := by
  have hb : b.toNat < 256 := b.toNat_lt
  exact ofNat_eq (by omega)

end Bits

theorem decodeGroups_encode (bytes : List UInt8) : decodeGroups (encode bytes) = some bytes := by
  induction bytes using encode.induct with
  | case1 => rfl
  | case2 a =>
      have ha : a.toNat < 256 := a.toNat_lt
      rw [encode, decodeGroups, value_letter _ (by omega), value_letter _ (by omega)]
      simp only [bind, Option.bind_some, first_bits_last, and_self, if_true]
  | case3 a b =>
      have ha : a.toNat < 256 := a.toNat_lt
      have hb : b.toNat < 256 := b.toNat_lt
      rw [encode, decodeGroups, value_letter _ (by omega), value_letter _ (by omega),
        value_letter _ (by omega)]
      simp only [bind, Option.bind_some, first_bits, second_bits_last,
        letter_ne_pad (b.toNat % 16 * 4) (by omega), if_true, if_false]
  | case4 a b c rest ih =>
      have ha : a.toNat < 256 := a.toNat_lt
      have hb : b.toNat < 256 := b.toNat_lt
      have hc : c.toNat < 256 := c.toNat_lt
      rw [encode, decodeGroups, value_letter _ (by omega), value_letter _ (by omega),
        value_letter _ (by omega), value_letter _ (by omega), ih]
      simp only [bind, Option.bind_some, first_bits, second_bits, third_bits,
        letter_ne_pad (b.toNat % 16 * 4 + c.toNat / 64) (by omega),
        letter_ne_pad (c.toNat % 64) (by omega), if_false]

theorem isNewline_encode {bytes : List UInt8} {c : UInt8} (h : c ∈ encode bytes) :
    isNewline c = false := by
  induction bytes using encode.induct with
  | case1 => cases h
  | case2 a =>
      simp only [encode, List.mem_cons, List.not_mem_nil, or_false] at h
      obtain rfl | rfl | rfl | rfl := h
      · exact isNewline_letter _
      · exact isNewline_letter _
      · rfl
      · rfl
  | case3 a b =>
      simp only [encode, List.mem_cons, List.not_mem_nil, or_false] at h
      obtain rfl | rfl | rfl | rfl := h
      · exact isNewline_letter _
      · exact isNewline_letter _
      · exact isNewline_letter _
      · rfl
  | case4 a b d rest ih =>
      simp only [encode, List.mem_cons] at h
      obtain rfl | rfl | rfl | rfl | h := h
      · exact isNewline_letter _
      · exact isNewline_letter _
      · exact isNewline_letter _
      · exact isNewline_letter _
      · exact ih h

theorem filter_newlines {s : GoString} (h : ∀ c ∈ s, isNewline c = false) :
    s.filter (fun c ↦ !isNewline c) = s := by
  rw [List.filter_eq_self]
  intro c hc
  rw [h c hc]
  rfl

theorem decode_encode (bytes : List UInt8) : decode (encode bytes) = some bytes := by
  rw [decode, filter_newlines fun _ hc ↦ isNewline_encode hc, decodeGroups_encode]

/-! ## `RawURLEncoding` -/

namespace RawURL

def letter (n : Nat) : UInt8 :=
  if n < 62 then Base64.letter n
  else if n = 62 then 45
  else 95

def value (c : UInt8) : Option Nat :=
  if c = 45 then some 62
  else if c = 95 then some 63
  else if c = 43 ∨ c = 47 then none
  else Base64.value c

theorem value_letter : ∀ n < 64, value (letter n) = some n := by decide

theorem isNewline_letter (n : Nat) : isNewline (letter n) = false := by
  have hletters : ∀ n < 64, isNewline (letter n) = false := by decide
  by_cases hn : n < 64
  · exact hletters n hn
  · rw [letter, if_neg (by omega), if_neg (by omega)]
    rfl

def encode : List UInt8 → GoString
  | [] => []
  | [a] => [letter (a.toNat / 4), letter (a.toNat % 4 * 16)]
  | [a, b] =>
      [letter (a.toNat / 4), letter (a.toNat % 4 * 16 + b.toNat / 16), letter (b.toNat % 16 * 4)]
  | a :: b :: c :: rest =>
      letter (a.toNat / 4) :: letter (a.toNat % 4 * 16 + b.toNat / 16) ::
        letter (b.toNat % 16 * 4 + c.toNat / 64) :: letter (c.toNat % 64) :: encode rest

/-- Two or three letters may stand at the end, and the bits that are left over need not be zero. -/
def decodeGroups : GoString → Option (List UInt8)
  | [] => some []
  | [_] => none
  | [a, b] => do
      let x ← value a
      let y ← value b
      some [UInt8.ofNat (x * 4 + y / 16)]
  | [a, b, c] => do
      let x ← value a
      let y ← value b
      let z ← value c
      some [UInt8.ofNat (x * 4 + y / 16), UInt8.ofNat (y % 16 * 16 + z / 4)]
  | a :: b :: c :: d :: rest => do
      let x ← value a
      let y ← value b
      let z ← value c
      let w ← value d
      let bytes ← decodeGroups rest
      some (UInt8.ofNat (x * 4 + y / 16) :: UInt8.ofNat (y % 16 * 16 + z / 4) ::
        UInt8.ofNat (z % 4 * 64 + w) :: bytes)

def decode (s : GoString) : Option (List UInt8) := decodeGroups (s.filter fun c ↦ !isNewline c)

theorem decodeGroups_encode (bytes : List UInt8) : decodeGroups (encode bytes) = some bytes := by
  induction bytes using encode.induct with
  | case1 => rfl
  | case2 a =>
      have ha : a.toNat < 256 := a.toNat_lt
      rw [encode, decodeGroups, value_letter _ (by omega), value_letter _ (by omega)]
      simp only [bind, Option.bind_some, first_bits_last]
  | case3 a b =>
      have ha : a.toNat < 256 := a.toNat_lt
      have hb : b.toNat < 256 := b.toNat_lt
      rw [encode, decodeGroups, value_letter _ (by omega), value_letter _ (by omega),
        value_letter _ (by omega)]
      simp only [bind, Option.bind_some, first_bits, second_bits_last]
  | case4 a b c rest ih =>
      have ha : a.toNat < 256 := a.toNat_lt
      have hb : b.toNat < 256 := b.toNat_lt
      have hc : c.toNat < 256 := c.toNat_lt
      rw [encode, decodeGroups, value_letter _ (by omega), value_letter _ (by omega),
        value_letter _ (by omega), value_letter _ (by omega), ih]
      simp only [bind, Option.bind_some, first_bits, second_bits, third_bits]

theorem isNewline_encode {bytes : List UInt8} {c : UInt8} (h : c ∈ encode bytes) :
    isNewline c = false := by
  have hletter : ∃ n, c = letter n := by
    induction bytes using encode.induct with
    | case1 => cases h
    | case2 a =>
        simp only [encode, List.mem_cons, List.not_mem_nil, or_false] at h
        obtain h | h := h <;> exact ⟨_, h⟩
    | case3 a b =>
        simp only [encode, List.mem_cons, List.not_mem_nil, or_false] at h
        obtain h | h | h := h <;> exact ⟨_, h⟩
    | case4 a b d rest ih =>
        simp only [encode, List.mem_cons] at h
        obtain h | h | h | h | h := h
        · exact ⟨_, h⟩
        · exact ⟨_, h⟩
        · exact ⟨_, h⟩
        · exact ⟨_, h⟩
        · exact ih h
  obtain ⟨n, rfl⟩ := hletter
  exact isNewline_letter n

theorem decode_encode (bytes : List UInt8) : decode (encode bytes) = some bytes := by
  rw [decode, filter_newlines fun _ hc ↦ isNewline_encode hc, decodeGroups_encode]

end RawURL

end CommonLib.Reasoning.Base64
