import CommonLib.Reasoning.GoString

/-! Numbers, white space and separators in texts. -/

namespace CommonLib.Reasoning.GoString

/-! ## Decimal numbers -/

def IsDigit (c : UInt8) : Prop := 48 ≤ c ∧ c ≤ 57

instance (c : UInt8) : Decidable (IsDigit c) := inferInstanceAs (Decidable (_ ∧ _))

def digit (d : Nat) : UInt8 := .ofNat (48 + d)

/-- The digits of a number, without leading zeros. -/
def formatDecimal (n : Nat) : GoString :=
  if n = 0 then [digit 0] else (Nat.digits 10 n).reverse.map digit

theorem digit_toNat {d : Nat} (h : d < 10) : (digit d).toNat = 48 + d := by
  rw [digit, UInt8.toNat_ofNat', Nat.mod_eq_of_lt (by omega)]

theorem isDigit_digit {d : Nat} (h : d < 10) : IsDigit (digit d) := by
  rw [IsDigit, UInt8.le_iff_toNat_le, UInt8.le_iff_toNat_le, digit_toNat h]
  simp only [UInt8.reduceToNat]
  omega

theorem isDigit_of_mem_formatDecimal {n : Nat} {c : UInt8} (h : c ∈ formatDecimal n) :
    IsDigit c := by
  rw [formatDecimal] at h
  split at h
  next =>
    rw [List.mem_singleton.mp h]
    decide
  next =>
    obtain ⟨d, hd, rfl⟩ := List.mem_map.mp h
    exact isDigit_digit (Nat.digits_lt_base (by decide) (List.mem_reverse.mp hd))

theorem formatDecimal_ne_nil (n : Nat) : formatDecimal n ≠ [] := by
  rw [formatDecimal]
  split
  next => exact List.cons_ne_nil _ _
  next hn => simpa [Nat.digits_ne_nil_iff_ne_zero] using hn

/-- The first digit counts most. -/
theorem foldl_digits {ds : List Nat} (h : ∀ d ∈ ds, d < 10) :
    (ds.reverse.map digit).foldl (fun n c ↦ 10 * n + (c.toNat - 48)) 0 = Nat.ofDigits 10 ds := by
  rw [List.foldl_map, List.foldl_reverse]
  induction ds with
  | nil => rfl
  | cons d ds ih =>
      rw [List.foldr_cons, ih fun e he ↦ h e (List.mem_cons_of_mem d he),
        digit_toNat (h d List.mem_cons_self), Nat.ofDigits_cons]
      omega

theorem decimal_formatDecimal (n : Nat) : decimal (formatDecimal n) = some n := by
  rw [decimal, if_pos]
  · congr 1
    rw [formatDecimal]
    split
    next hn =>
      rw [hn]
      rfl
    next =>
      rw [foldl_digits fun d hd ↦ Nat.digits_lt_base (by decide) hd, Nat.ofDigits_digits]
  · refine ⟨formatDecimal_ne_nil n, List.all_eq_true.mpr fun c hc ↦ ?_⟩
    rw [Bool.and_eq_true, decide_eq_true_eq, decide_eq_true_eq]
    exact isDigit_of_mem_formatDecimal hc

theorem isDigit_of_decimal {s : GoString} {n : Nat} (h : decimal s = some n) :
    ∀ c ∈ s, IsDigit c := by
  rw [decimal, Option.ite_none_right_eq_some] at h
  intro c hc
  have hdigit := List.all_eq_true.mp h.1.2 c hc
  rwa [Bool.and_eq_true, decide_eq_true_eq, decide_eq_true_eq] at hdigit

theorem head?_ne_of_isDigit {s : GoString} (h : ∀ c ∈ s, IsDigit c) {b : UInt8} (hb : ¬ IsDigit b) :
    s.head? ≠ some b :=
  fun hhead ↦ hb (h b (List.mem_of_mem_head? hhead))

/-- Without a sign in front, `Atoi` reads the digits. -/
theorem atoi_of_isDigit {s : GoString} (h : ∀ c ∈ s, IsDigit c) :
    s.atoi = (decimal s).bind fun n ↦ if n < 2 ^ 63 then some (.ofNat n) else none := by
  have hminus : s.head? ≠ some 45 := head?_ne_of_isDigit h (by decide)
  have hplus : s.head? ≠ some 43 := head?_ne_of_isDigit h (by decide)
  simp only [atoi, hminus, hplus, or_self, if_false]
  rfl

theorem atoi_plus (s : GoString) :
    atoi (43 :: s) = (decimal s).bind fun n ↦ if n < 2 ^ 63 then some (.ofNat n) else none := rfl

theorem atoi_formatDecimal {n : Nat} (h : n < 2 ^ 63) :
    (formatDecimal n).atoi = some (.ofNat n) := by
  rw [atoi_of_isDigit fun c hc ↦ isDigit_of_mem_formatDecimal hc, decimal_formatDecimal]
  exact if_pos h

/-! ## Hexadecimal digits -/

def hexDigit (n : Nat) : UInt8 := if n < 10 then .ofNat (48 + n) else .ofNat (87 + n)

def hexValue (c : UInt8) : Option Nat :=
  let n := c.toNat
  if 48 ≤ n ∧ n ≤ 57 then some (n - 48)
  else if 97 ≤ n ∧ n ≤ 102 then some (n - 87)
  else if 65 ≤ n ∧ n ≤ 70 then some (n - 55)
  else none

theorem hexValue_hexDigit : ∀ n < 16, hexValue (hexDigit n) = some n := by decide

/-- Two digits for every byte. -/
def hexText (bytes : List UInt8) : GoString :=
  bytes.flatMap fun b ↦ [hexDigit (b.toNat / 16), hexDigit (b.toNat % 16)]

def hexBytes : GoString → Option (List UInt8)
  | [] => some []
  | [_] => none
  | a :: b :: s => do
      let x ← hexValue a
      let y ← hexValue b
      let bytes ← hexBytes s
      return .ofNat (x * 16 + y) :: bytes

theorem hexBytes_hexText (bytes : List UInt8) : hexBytes (hexText bytes) = some bytes := by
  induction bytes with
  | nil => rfl
  | cons b bytes ih =>
      have hb := b.toNat_lt
      have hbyte : UInt8.ofNat (b.toNat / 16 * 16 + b.toNat % 16) = b := by
        rw [Nat.div_add_mod', UInt8.ofNat_toNat]
      change hexBytes (hexDigit (b.toNat / 16) :: hexDigit (b.toNat % 16) :: hexText bytes) = _
      simp only [hexBytes, hexValue_hexDigit _ (by omega : b.toNat / 16 < 16),
        hexValue_hexDigit _ (by omega : b.toNat % 16 < 16), ih, bind, Option.bind_some, pure, hbyte]

/-! ## White space -/

/-- The characters of white space in UTF-8. -/
def spaces : List GoString :=
  [[9], [10], [11], [12], [13], [32], [0xC2, 0x85], [0xC2, 0xA0], [0xE1, 0x9A, 0x80],
    [0xE2, 0x80, 0x80], [0xE2, 0x80, 0x81], [0xE2, 0x80, 0x82], [0xE2, 0x80, 0x83],
    [0xE2, 0x80, 0x84], [0xE2, 0x80, 0x85], [0xE2, 0x80, 0x86], [0xE2, 0x80, 0x87],
    [0xE2, 0x80, 0x88], [0xE2, 0x80, 0x89], [0xE2, 0x80, 0x8A], [0xE2, 0x80, 0xA8],
    [0xE2, 0x80, 0xA9], [0xE2, 0x80, 0xAF], [0xE2, 0x81, 0x9F], [0xE3, 0x80, 0x80]]

/-- The text without the characters in front, of which there are at most `fuel`. -/
def trimStart (chars : List GoString) : Nat → GoString → GoString
  | 0, s => s
  | fuel + 1, s =>
      match chars.findSome? fun w ↦ s.dropPrefix? w with
      | some rest => trimStart chars fuel rest
      | none => s

/-- `strings.TrimSpace`.  A character of UTF-8 is found from its end as well. -/
def trimSpace (s : GoString) : GoString :=
  let s := trimStart spaces s.length s
  (trimStart (spaces.map List.reverse) s.length s.reverse).reverse

theorem trimStart_of_not_mem {chars : List GoString} {s : GoString} (hchars : [] ∉ chars)
    (h : ∀ w ∈ chars, ∀ b ∈ w, b ∉ s) (fuel : Nat) : trimStart chars fuel s = s := by
  cases fuel with
  | zero => rfl
  | succ fuel =>
      have hnone : (chars.findSome? fun w ↦ s.dropPrefix? w) = none := by
        rw [List.findSome?_eq_none_iff]
        intro w hw
        cases w with
        | nil => exact absurd hw hchars
        | cons b w =>
            have hb := h (b :: w) hw b List.mem_cons_self
            cases s with
            | nil => rfl
            | cons c s =>
                have hne : c ≠ b := fun heq ↦ hb (heq ▸ List.mem_cons_self)
                simp [List.dropPrefix?, hne]
      rw [trimStart, hnone]

theorem toNat_of_mem_spaces {w : GoString} (hw : w ∈ spaces) {b : UInt8} (hb : b ∈ w) :
    b.toNat < 33 ∨ 128 ≤ b.toNat := by
  have hall : ((spaces.flatten.map UInt8.toNat).all fun n ↦ n < 33 || 128 ≤ n) = true := rfl
  have hbyte := List.all_eq_true.mp hall b.toNat
    (List.mem_map_of_mem (List.mem_flatten_of_mem hw hb))
  rwa [Bool.or_eq_true, decide_eq_true_eq, decide_eq_true_eq] at hbyte

/-- Only printable ASCII. -/
theorem trimSpace_of_printable {s : GoString} (h : ∀ c ∈ s, 33 ≤ c ∧ c < 0x80) :
    trimSpace s = s := by
  have hnot : ∀ w ∈ spaces, ∀ b ∈ w, b ∉ s := by
    intro w hw b hb hmem
    obtain ⟨hlow, hhigh⟩ := h b hmem
    have hbyte := toNat_of_mem_spaces hw hb
    simp only [UInt8.le_iff_toNat_le, UInt8.lt_iff_toNat_lt, UInt8.reduceToNat] at hlow hhigh
    omega
  have hback : ∀ w ∈ spaces.map List.reverse, ∀ b ∈ w, b ∉ s.reverse := by
    intro w hw b hb
    obtain ⟨v, hv, rfl⟩ := List.mem_map.mp hw
    rw [List.mem_reverse] at hb ⊢
    exact hnot v hv b hb
  rw [trimSpace, trimStart_of_not_mem (by decide) hnot, trimStart_of_not_mem (by decide) hback,
    List.reverse_reverse]

theorem trimSpace_formatDecimal (n : Nat) : trimSpace (formatDecimal n) = formatDecimal n := by
  refine trimSpace_of_printable fun c hc ↦ ?_
  obtain ⟨hlow, hhigh⟩ := isDigit_of_mem_formatDecimal hc
  exact ⟨UInt8.le_trans (by decide) hlow, UInt8.lt_of_le_of_lt hhigh (by decide)⟩

/-! ## Separators -/

section Separators

variable {sep p : GoString} {parts : List GoString}

theorem intercalate_cons (sep p : GoString) (parts : List GoString) :
    sep.intercalate (p :: parts) = p ++ parts.flatMap (sep ++ ·) := by
  induction parts generalizing p with
  | nil => rw [List.intercalate_singleton, List.flatMap_nil, List.append_nil]
  | cons q parts ih =>
      rw [List.intercalate_cons_cons, ih, List.flatMap_cons, List.append_assoc, List.append_assoc]

theorem intercalate_concat (h : parts ≠ []) :
    sep.intercalate (parts ++ [p]) = sep.intercalate parts ++ (sep ++ p) := by
  obtain ⟨q, parts, rfl⟩ := List.exists_cons_of_ne_nil h
  rw [List.cons_append, intercalate_cons, intercalate_cons, List.flatMap_append,
    List.flatMap_singleton, List.append_assoc]

theorem intercalate_eq_nil_iff (h : ∀ p ∈ parts, p ≠ []) :
    sep.intercalate parts = [] ↔ parts = [] := by
  cases parts with
  | nil => exact iff_of_true rfl rfl
  | cons p parts =>
      rw [intercalate_cons, List.append_eq_nil_iff]
      exact iff_of_false (fun hnil ↦ h p List.mem_cons_self hnil.1) (List.cons_ne_nil p parts)

/-- What stands in front of each part may as well belong to the separator. -/
theorem intercalate_map_append (mark : GoString) (h : parts ≠ []) :
    sep.intercalate (parts.map (mark ++ ·)) = mark ++ (sep ++ mark).intercalate parts := by
  obtain ⟨q, parts, rfl⟩ := List.exists_cons_of_ne_nil h
  rw [List.map_cons, intercalate_cons, intercalate_cons, List.flatMap_map, List.append_assoc]
  simp only [List.append_assoc]

end Separators

end CommonLib.Reasoning.GoString
