import Mathlib

/-!
# DER

Elements with a tag, a length and a content, and the integers that are not negative.  There is one
encoding of each, so that a text can be taken apart in one way only.
-/

namespace CommonLib.Reasoning.DER

abbrev Bytes := List UInt8

/-! ## Numbers in base 256 -/

/-- The digits, the most significant first, without leading zeros. -/
def bigEndian (n : Nat) : Bytes := (Nat.digits 256 n).reverse.map .ofNat

/-- The number that bytes go on to, after `acc`. -/
def number (acc : Nat) (bs : Bytes) : Nat := bs.foldl (fun acc b ↦ acc * 256 + b.toNat) acc

theorem number_eq (acc : Nat) (bs : Bytes) :
    number acc bs = acc * 256 ^ bs.length + Nat.ofDigits 256 (bs.map UInt8.toNat).reverse := by
  induction bs generalizing acc with
  | nil => simp [number]
  | cons b bs ih =>
      rw [number, List.foldl_cons, ← number, ih, List.map_cons, List.reverse_cons,
        Nat.ofDigits_append, List.length_reverse, List.length_map, Nat.ofDigits_singleton,
        List.length_cons, pow_succ]
      ring

theorem number_zero_cons (bs : Bytes) : number 0 (0 :: bs) = number 0 bs := by simp [number]

theorem map_toNat_bigEndian (n : Nat) :
    (bigEndian n).map UInt8.toNat = (Nat.digits 256 n).reverse := by
  rw [bigEndian, List.map_map]
  refine (List.map_congr_left fun d hd ↦ ?_).trans (List.map_id _)
  have hlt : d < 256 := Nat.digits_lt_base (by decide) (List.mem_reverse.mp hd)
  exact (UInt8.toNat_ofNat').trans (Nat.mod_eq_of_lt hlt)

theorem number_bigEndian (n : Nat) : number 0 (bigEndian n) = n := by
  rw [number_eq, zero_mul, zero_add, map_toNat_bigEndian, List.reverse_reverse,
    Nat.ofDigits_digits]

theorem bigEndian_number (bs : Bytes) (h : bs.head? ≠ some 0) : bigEndian (number 0 bs) = bs := by
  have hlast : ∀ hne : (bs.map UInt8.toNat).reverse ≠ [],
      (bs.map UInt8.toNat).reverse.getLast hne ≠ 0 := by
    intro hne hzero
    rw [List.getLast_reverse] at hzero
    cases bs with
    | nil => exact hne rfl
    | cons b bs =>
        have hb : b = 0 := UInt8.toNat_inj.mp hzero
        exact h (by rw [hb]; rfl)
  have hlt : ∀ d ∈ (bs.map UInt8.toNat).reverse, d < 256 := by
    intro d hd
    obtain ⟨b, -, rfl⟩ := List.mem_map.mp (List.mem_reverse.mp hd)
    exact b.toNat_lt
  rw [bigEndian, number_eq, zero_mul, zero_add, Nat.digits_ofDigits 256 (by decide) _ hlt hlast,
    List.reverse_reverse, List.map_map]
  refine (List.map_congr_left fun b _ ↦ ?_).trans (List.map_id _)
  exact UInt8.ofNat_toNat

theorem head?_bigEndian (n : Nat) : (bigEndian n).head? ≠ some 0 := by
  intro hhead
  have hdigits : (Nat.digits 256 n).reverse.head? = some 0 := by
    rw [← map_toNat_bigEndian, List.head?_map, hhead]
    rfl
  have hne : Nat.digits 256 n ≠ [] := by
    intro hnil
    rw [hnil] at hdigits
    cases hdigits
  rw [List.head?_reverse, List.getLast?_eq_some_getLast hne, Option.some.injEq] at hdigits
  exact Nat.getLast_digit_ne_zero 256 (Nat.digits_ne_nil_iff_ne_zero.mp hne) hdigits

/-! ## Lengths -/

def writeLength (n : Nat) : Bytes :=
  if n < 0x80 then [.ofNat n]
  else .ofNat (0x80 + (bigEndian n).length) :: bigEndian n

/-- So many bytes of a length, after `acc`.  A leading zero is refused, and what does not fit. -/
def readLong : Nat → Nat → Bytes → Option (Nat × Bytes)
  | 0, acc, s => some (acc, s)
  | _ + 1, _, [] => none
  | k + 1, acc, b :: s =>
      if acc ≥ 2 ^ 23 ∨ acc * 256 + b.toNat = 0 then none
      else readLong k (acc * 256 + b.toNat) s

/-- A length of one byte, or of as many as the first byte says, if that is the shortest way. -/
def readLength : Bytes → Option (Nat × Bytes)
  | [] => none
  | b :: s =>
      if b < 0x80 then some (b.toNat, s)
      else if b = 0x80 then none
      else
        match readLong (b.toNat - 0x80) 0 s with
        | some (n, rest) => if n < 0x80 then none else some (n, rest)
        | none => none

theorem readLong_append {bs : Bytes} (acc : Nat) (rest : Bytes)
    (hpos : 0 < acc ∨ bs.head? ≠ some 0) (h : number acc bs < 2 ^ 31) :
    readLong bs.length acc (bs ++ rest) = some (number acc bs, rest) := by
  induction bs generalizing acc with
  | nil => rfl
  | cons b bs ih =>
      have hle : acc * 256 + b.toNat ≤ number acc (b :: bs) := by
        rw [number, List.foldl_cons, ← number, number_eq]
        exact Nat.le_add_right_of_le (Nat.le_mul_of_pos_right _ (by positivity))
      have hnext : 0 < acc * 256 + b.toNat := by
        rcases hpos with hpos | hhead
        · omega
        · have hb : b.toNat ≠ 0 := by
            intro hzero
            have hb : b = 0 := UInt8.toNat_inj.mp hzero
            exact hhead (by rw [hb]; rfl)
          omega
      rw [List.length_cons, List.cons_append, readLong, if_neg (by omega)]
      exact ih _ (.inl hnext) h

theorem readLong_inv {k acc n : Nat} {s rest : Bytes} (h : readLong k acc s = some (n, rest)) :
    ∃ bs, bs.length = k ∧ s = bs ++ rest ∧ n = number acc bs ∧ (acc = 0 → bs.head? ≠ some 0) ∧
      (acc < 2 ^ 31 → n < 2 ^ 31) := by
  induction k generalizing acc s with
  | zero =>
      cases h
      exact ⟨[], rfl, rfl, rfl, fun _ hhead ↦ (by cases hhead), id⟩
  | succ k ih =>
      cases s with
      | nil => cases h
      | cons b s =>
          rw [readLong] at h
          split at h
          · cases h
          next hok =>
            rw [not_or] at hok
            obtain ⟨bs, hlen, rfl, hn, -, hlt⟩ := ih h
            have hb := b.toNat_lt
            refine ⟨b :: bs, by rw [List.length_cons, hlen], rfl, hn, fun hzero hhead ↦ ?_,
              fun _ ↦ hlt (by omega)⟩
            cases hhead
            rw [hzero] at hok
            exact hok.2 rfl

theorem length_bigEndian_le {n : Nat} (h : n < 2 ^ 31) : (bigEndian n).length ≤ 4 := by
  rw [bigEndian, List.length_map, List.length_reverse, Nat.digits_length_le_iff (by decide)]
  omega

theorem readLength_writeLength {n : Nat} (h : n < 2 ^ 31) (rest : Bytes) :
    readLength (writeLength n ++ rest) = some (n, rest) := by
  rw [writeLength]
  split
  next hshort =>
    have hn : (UInt8.ofNat n).toNat = n := UInt8.toNat_ofNat_of_lt' (by rw [UInt8.size]; omega)
    have hlt : UInt8.ofNat n < 0x80 := UInt8.lt_iff_toNat_lt.mpr (by rw [hn]; exact hshort)
    rw [List.singleton_append, readLength, if_pos hlt, hn]
  next hlong =>
    have hlen := length_bigEndian_le h
    have hne : 0 < (bigEndian n).length := by
      rw [bigEndian, List.length_map, List.length_reverse]
      exact List.length_pos_iff.mpr (Nat.digits_ne_nil_iff_ne_zero.mpr (by omega))
    have hb : (UInt8.ofNat (0x80 + (bigEndian n).length)).toNat = 0x80 + (bigEndian n).length :=
      UInt8.toNat_ofNat_of_lt' (by rw [UInt8.size]; omega)
    have hread := readLong_append 0 rest (.inr (head?_bigEndian n))
      (by rw [number_bigEndian]; exact h)
    rw [number_bigEndian] at hread
    rw [List.cons_append, readLength, if_neg, if_neg, hb, Nat.add_sub_cancel_left, hread]
    · exact if_neg hlong
    · intro heq
      have htoNat := congrArg UInt8.toNat heq
      rw [hb] at htoNat
      change 0x80 + (bigEndian n).length = 0x80 at htoNat
      omega
    · rw [UInt8.lt_iff_toNat_lt, hb]
      exact Nat.not_lt.mpr (Nat.le_add_right _ _)

/-- Only what `writeLength` writes is read. -/
theorem readLength_inv {n : Nat} {s rest : Bytes} (h : readLength s = some (n, rest)) :
    s = writeLength n ++ rest ∧ n < 2 ^ 31 := by
  cases s with
  | nil => cases h
  | cons b s =>
      rw [readLength] at h
      split at h
      next hshort =>
        cases h
        have hlt : b.toNat < 0x80 := UInt8.lt_iff_toNat_lt.mp hshort
        rw [writeLength, if_pos hlt, UInt8.ofNat_toNat]
        exact ⟨rfl, by omega⟩
      next hlong =>
        split at h
        · cases h
        next hne =>
          cases hread : readLong (b.toNat - 0x80) 0 s with
          | none =>
              rw [hread] at h
              cases h
          | some p =>
              rw [hread] at h
              obtain ⟨hmin, h⟩ := Option.ite_none_left_eq_some.mp h
              cases h
              obtain ⟨bs, hlen, rfl, hn, hhead, hlt⟩ := readLong_inv hread
              have hbytes : bigEndian p.1 = bs := by
                rw [hn]
                exact bigEndian_number bs (hhead rfl)
              have hb : 0x80 ≤ b.toNat :=
                Nat.not_lt.mp fun hlt ↦ hlong (UInt8.lt_iff_toNat_lt.mpr hlt)
              rw [writeLength, if_neg hmin, hbytes, hlen, Nat.add_sub_cancel' hb,
                UInt8.ofNat_toNat]
              exact ⟨rfl, hlt (by decide)⟩

theorem length_writeLength_mono {m n : Nat} (h : m ≤ n) :
    (writeLength m).length ≤ (writeLength n).length := by
  have hdigits : (bigEndian m).length ≤ (bigEndian n).length := by
    simp only [bigEndian, List.length_map, List.length_reverse]
    exact Nat.le_length_digits_le 256 m n h
  rw [writeLength, writeLength]
  split <;> split
  · exact le_rfl
  · exact Nat.succ_le_succ (Nat.zero_le _)
  · omega
  · exact Nat.succ_le_succ hdigits

theorem length_writeLength_le {n : Nat} (h : n < 2 ^ 31) : (writeLength n).length ≤ 5 := by
  have hlen := length_bigEndian_le h
  rw [writeLength]
  split
  · exact Nat.succ_le_succ (Nat.zero_le _)
  · rw [List.length_cons]
    omega

theorem length_writeLength_pos (n : Nat) : 0 < (writeLength n).length := by
  rw [writeLength]
  split <;> exact Nat.succ_pos _

/-! ## Elements -/

def element (tag : UInt8) (content : Bytes) : Bytes :=
  tag :: (writeLength content.length ++ content)

/-- The content of an element, and what follows it. -/
def readElement (tag : UInt8) : Bytes → Option (Bytes × Bytes)
  | [] => none
  | t :: s =>
      if t = tag then
        match readLength s with
        -- all of the content has to be there
        | some (n, s) => if n ≤ s.length then some (s.take n, s.drop n) else none
        | none => none
      else none

variable {tag : UInt8} {content content' rest s : Bytes} {m n : Nat}

theorem readElement_element (tag : UInt8) (h : content.length < 2 ^ 31) (rest : Bytes) :
    readElement tag (element tag content ++ rest) = some (content, rest) := by
  rw [element, List.cons_append, readElement, if_pos rfl, List.append_assoc,
    readLength_writeLength h]
  simp

theorem readElement_inv (h : readElement tag s = some (content, rest)) :
    s = element tag content ++ rest ∧ content.length < 2 ^ 31 := by
  cases s with
  | nil => cases h
  | cons t s =>
      rw [readElement] at h
      obtain ⟨htag, hcontent⟩ := Option.ite_none_right_eq_some.mp h
      cases hread : readLength s with
      | none =>
          rw [hread] at hcontent
          cases hcontent
      | some p =>
          rw [hread] at hcontent
          obtain ⟨hle, heq⟩ := Option.ite_none_right_eq_some.mp hcontent
          cases heq
          obtain ⟨hs, hlt⟩ := readLength_inv hread
          have hlen : (p.2.take p.1).length = p.1 := by rw [List.length_take, min_eq_left hle]
          rw [element, hlen]
          refine ⟨?_, hlt⟩
          rw [htag, List.cons_append, List.append_assoc, List.take_append_drop, ← hs]

theorem length_element (tag : UInt8) (content : Bytes) :
    (element tag content).length = 1 + (writeLength content.length).length + content.length := by
  rw [element, List.length_cons, List.length_append]
  omega

/-- The length says where an element ends. -/
theorem element_eq_of_prefix (h : content.length < 2 ^ 31) (h' : content'.length < 2 ^ 31)
    (hbegins : element tag content <+: element tag content') : content = content' := by
  obtain ⟨rest, hrest⟩ := hbegins
  have hread := readElement_element tag h' []
  rw [List.append_nil, ← hrest, readElement_element tag h] at hread
  cases hread
  rfl

theorem content_eq_nil_of_length_eq (h : (element tag (content ++ rest)).length =
    (element tag content).length) : rest = [] := by
  have hmono := length_writeLength_mono (Nat.le_add_right content.length rest.length)
  rw [length_element, length_element, List.length_append] at h
  exact List.length_eq_zero_iff.mp (by omega)

/-- If an element begins like another one, as far as its length and a part of its content go, that
part begins the other's content. -/
theorem prefix_of_element_take (h : (content ++ rest).length < 2 ^ 31)
    (h' : content'.length < 2 ^ 31) (hn : 6 + content.length ≤ n)
    (hsame : (element tag (content ++ rest)).take n = (element tag content').take n) :
    content <+: content' := by
  let head := tag :: (writeLength (content ++ rest).length ++ content)
  have hsplit : element tag (content ++ rest) = head ++ rest := by
    simp only [element, head, List.cons_append, List.append_assoc]
  have hlen : head.length ≤ n := by
    have hle := length_writeLength_le h
    rw [List.length_cons, List.length_append]
    omega
  have hhead : head <+: element tag content' := by
    have htake : head <+: (element tag (content ++ rest)).take n := by
      rw [hsplit]
      exact List.prefix_take_iff.mpr ⟨List.prefix_append _ _, hlen⟩
    rw [hsame] at htake
    exact htake.trans (List.take_prefix _ _)
  obtain ⟨more, hmore⟩ := hhead
  have htail : writeLength (content ++ rest).length ++ (content ++ more) =
      writeLength content'.length ++ content' := by
    rw [← List.append_assoc]
    exact (List.cons_inj_right tag).mp hmore
  have hread := readLength_writeLength h (content ++ more)
  rw [htail, readLength_writeLength h', Option.some.injEq, Prod.mk.injEq] at hread
  exact ⟨more, hread.2.symm⟩

/-! ## Integers -/

/-- With a zero before a first byte that would be read as a sign. -/
def integerBytes (n : Nat) : Bytes :=
  match bigEndian n with
  | [] => [0]
  | b :: bs => if b < 0x80 then b :: bs else 0 :: b :: bs

/-- The number, if it is not negative and written in the shortest way. -/
def natural : Bytes → Option Nat
  | [] => none
  | [b] => if b < 0x80 then some b.toNat else none
  | b :: c :: bs =>
      -- a zero byte stands only before one that would be read as a sign
      if b < 0x80 ∧ ¬ (b = 0 ∧ c < 0x80) then some (number 0 (b :: c :: bs)) else none

theorem natural_integerBytes (n : Nat) : natural (integerBytes n) = some n := by
  have hnumber := number_bigEndian n
  have hhead := head?_bigEndian n
  rw [integerBytes]
  cases hdigits : bigEndian n with
  | nil =>
      rw [hdigits] at hnumber
      cases hnumber
      rfl
  | cons b bs =>
      rw [hdigits] at hnumber hhead
      have hne : b ≠ 0 := fun hzero ↦ hhead (by rw [hzero]; rfl)
      simp only
      split
      next hb =>
        cases bs with
        | nil =>
            rw [natural, if_pos hb, ← hnumber]
            simp [number]
        | cons c bs => rw [natural, if_pos ⟨hb, fun h ↦ hne h.1⟩, hnumber]
      next hb =>
        rw [natural, if_pos ⟨by decide, fun h ↦ hb h.2⟩, number_zero_cons, hnumber]

theorem natural_inv (h : natural s = some n) : s = integerBytes n := by
  match s with
  | [] => cases h
  | [b] =>
      obtain ⟨hb, h⟩ := Option.ite_none_right_eq_some.mp h
      cases h
      by_cases hzero : b = 0
      · subst hzero
        rfl
      · have hdigits := bigEndian_number [b] (by simpa using hzero)
        rw [show number 0 [b] = b.toNat by simp [number]] at hdigits
        rw [integerBytes, hdigits]
        exact (if_pos hb).symm
  | b :: c :: bs =>
      obtain ⟨⟨hb, hmin⟩, h⟩ := Option.ite_none_right_eq_some.mp h
      cases h
      by_cases hzero : b = 0
      · subst hzero
        have hc : ¬ c < 0x80 := fun hc ↦ hmin ⟨rfl, hc⟩
        have hdigits := bigEndian_number (c :: bs) (by
          rw [List.head?_cons]
          rintro ⟨⟩
          exact hc (by decide))
        rw [integerBytes, number_zero_cons, hdigits]
        exact (if_neg hc).symm
      · have hdigits := bigEndian_number (b :: c :: bs) (by simpa using hzero)
        rw [integerBytes, hdigits]
        exact (if_pos hb).symm

def integer (n : Nat) : Bytes := element 0x02 (integerBytes n)

/-- An integer that is not negative, and what follows it. -/
def readInteger (s : Bytes) : Option (Nat × Bytes) := do
  let (content, rest) ← readElement 0x02 s
  let n ← natural content
  return (n, rest)

theorem readInteger_integer (h : (integer n).length < 2 ^ 31) (rest : Bytes) :
    readInteger (integer n ++ rest) = some (n, rest) := by
  have hlen : (integerBytes n).length < 2 ^ 31 := by
    rw [integer, length_element] at h
    omega
  simp only [readInteger, integer, readElement_element 0x02 hlen, natural_integerBytes, bind,
    Option.bind_some, pure]

theorem readInteger_inv (h : readInteger s = some (n, rest)) : s = integer n ++ rest := by
  rw [readInteger] at h
  obtain ⟨⟨content, rest'⟩, hread, h⟩ := Option.bind_eq_some_iff.mp h
  obtain ⟨n', hnatural, h⟩ := Option.bind_eq_some_iff.mp h
  cases h
  rw [integer, ← natural_inv hnatural]
  exact (readElement_inv hread).1

end CommonLib.Reasoning.DER
