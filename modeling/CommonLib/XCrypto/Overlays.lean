import CommonLib.XCrypto.Encodings

/-!
# A key file that begins like another one

The file of a key with the first bytes of another key's file over it.  It is read as the old key only
if these bytes were there before.
-/

namespace CommonLib.XCrypto

open Reasoning PEM

variable {old new : PublicKey} {rest : GoString} {m : Nat}

/-- The lines of a key file between its BEGIN and its END. -/
def PublicKey.lines (key : PublicKey) : GoString := wrapFrom 0 (Base64.encode key.marshal)

/-- How many letters come before a place in the lines. -/
def place (m : Nat) : Nat := m - m / 65

def keyType : GoString := .ofASCII "RSA PUBLIC KEY"

theorem marshalPublicKey_eq (key : PublicKey) :
    marshalPublicKey stdFormats key = beginLine keyType ++ (key.lines ++ endLine keyType) := rfl

/-- What older keys have left behind the key: no header and no other block. -/
structure Leftover (rest : GoString) : Prop where
  colon : 58 ∉ rest
  begins : ¬ GoString.ofASCII "BEGIN " <:+: rest

namespace PublicKey

theorem not_mem_lines (key : PublicKey) : 32 ∉ key.lines ∧ 45 ∉ key.lines ∧ 58 ∉ key.lines := by
  have hnot {c : UInt8} (hc : c = 32 ∨ c = 45 ∨ c = 58) : c ∉ key.lines := by
    intro hmem
    rcases mem_wrapFrom hmem with hmem | rfl
    · obtain ⟨hblank, hdash, hcolon⟩ := not_special_of_mem_encode hmem
      rcases hc with rfl | rfl | rfl
      · cases hblank
      · exact hdash rfl
      · exact hcolon rfl
    · exact absurd hc (by decide)
  exact ⟨hnot (.inl rfl), hnot (.inr (.inl rfl)), hnot (.inr (.inr rfl))⟩

theorem not_isBlank (key : PublicKey) : ∀ c ∈ Base64.encode key.marshal, isBlank c = false :=
  fun _ hc ↦ (not_special_of_mem_encode hc).1

theorem letters_lines (key : PublicKey) : letters key.lines = Base64.encode key.marshal :=
  letters_wrapFrom key.not_isBlank 0

theorem letters_take_lines {key : PublicKey} (hm : m < key.lines.length) :
    letters (key.lines.take m) = (Base64.encode key.marshal).take (place m) :=
  letters_take_wrapFrom key.not_isBlank (by decide) hm

theorem letters_drop_lines {key : PublicKey} (hm : m < key.lines.length) :
    letters (key.lines.drop m) = (Base64.encode key.marshal).drop (place m) :=
  letters_drop_wrapFrom key.not_isBlank (by decide) hm

theorem length_lines (key : PublicKey) : key.lines.length =
    (Base64.encode key.marshal).length + ((Base64.encode key.marshal).length + 63) / 64 := by
  rw [lines, length_wrapFrom _ (by decide), zero_add]

theorem place_le {key : PublicKey} (hm : m < key.lines.length) :
    place m ≤ (Base64.encode key.marshal).length := by
  rw [length_lines] at hm
  rw [place]
  omega

theorem take_lines_eq (hm : m < new.lines.length) (hm' : m < old.lines.length)
    (h : (Base64.encode new.marshal).take (place m) = (Base64.encode old.marshal).take (place m)) :
    new.lines.take m = old.lines.take m :=
  take_wrapFrom_eq (by decide) hm hm' h

theorem takeWhile_lines (key : PublicKey) {part : GoString} (hpart : part ⊆ key.lines)
    (s : GoString) : (part ++ s).takeWhile (· ≠ 45) = part ++ s.takeWhile (· ≠ 45) := by
  refine List.takeWhile_append_of_pos fun c hc ↦ decide_eq_true ?_
  rintro rfl
  exact key.not_mem_lines.2.1 (hpart hc)

end PublicKey

/-! ## The END line of the old key -/

theorem endLine_keyType_cons : ∃ line, endLine keyType = 45 :: line ++ [10] ∧
    ¬ GoString.ofASCII "BEGIN " <:+: line := ⟨(endLine keyType).tail.dropLast, by decide⟩

/-- The END line cut at a dash. -/
theorem takeWhile_drop_endLine_dash {j : Nat} (hj : j < 5 ∨ 23 ≤ j ∧ j < 28) (rest : GoString) :
    ((endLine keyType ++ rest).drop j).takeWhile (· ≠ 45) = [] := by
  have hlt : j < 28 := by omega
  have hdash : ∀ j < 28, j < 5 ∨ 23 ≤ j → ((endLine keyType).drop j).head? = some 45 := by decide
  obtain ⟨line, hline⟩ := List.head?_eq_some_iff.mp (hdash j hlt (by omega))
  have hlen : j ≤ (endLine keyType).length := le_of_lt (hlt.trans (by decide))
  rw [List.drop_append_of_le_length hlen, hline]
  rfl

/-- Cut within its words it does not begin a line. -/
theorem takeWhile_drop_endLine_word {j : Nat} (hj : 5 ≤ j) (hj' : j < 23) (rest : GoString) :
    (((endLine keyType ++ rest).drop j).takeWhile (· ≠ 45)).getLast? = some 89 := by
  have hword : ∀ j < 23, 5 ≤ j → (((endLine keyType).take 23).drop j).getLast? = some 89 ∧
      ∀ c ∈ ((endLine keyType).take 23).drop j, decide (c ≠ 45) = true := by decide +kernel
  obtain ⟨hlast, hdash⟩ := hword j hj' hj
  have hsplit : endLine keyType ++ rest =
      (endLine keyType).take 23 ++ 45 :: ((endLine keyType).drop 24 ++ rest) := rfl
  have hlen : j ≤ ((endLine keyType).take 23).length := le_of_lt (hj'.trans_le (by decide))
  rw [hsplit, List.drop_append_of_le_length hlen, List.takeWhile_append_of_pos hdash,
    List.takeWhile_cons_of_neg (by decide), List.append_nil, hlast]

/-! ## What is left of a key file -/

/-- No BEGIN follows the first line of a key file. -/
theorem begins_not_infix (key : PublicKey) (hrest : Leftover rest) :
    ¬ GoString.ofASCII "BEGIN " <:+: key.lines ++ (endLine keyType ++ rest) := by
  obtain ⟨line, hline, hbegins⟩ := endLine_keyType_cons
  have hsplit : key.lines ++ (endLine keyType ++ rest) = key.lines ++ 45 :: (line ++ 10 :: rest) := by
    rw [hline]
    simp
  rw [hsplit]
  intro h
  rcases infix_of_append_cons (by decide) h with h | h
  · exact key.not_mem_lines.1 (h.subset (by decide))
  · rcases infix_of_append_cons (by decide) h with h | h
    · exact hbegins h
    · exact hrest.begins h

theorem leftover_nil : Leftover [] := ⟨List.not_mem_nil, by decide⟩

/-- The end of a key file, behind its first line. -/
theorem Leftover.drop (hrest : Leftover rest) (key : PublicKey) (n : Nat) :
    Leftover ((key.lines ++ (endLine keyType ++ rest)).drop n) where
  colon hmem := by
    rcases List.mem_append.mp (List.mem_of_mem_drop hmem) with hmem | hmem
    · exact key.not_mem_lines.2.2 hmem
    · rcases List.mem_append.mp hmem with hmem | hmem
      · exact absurd hmem (by decide)
      · exact hrest.colon hmem
  begins h := begins_not_infix key hrest (h.trans (List.drop_suffix _ _).isInfix)

/-! ## The old file with a part of the new one -/

def mixed (old new : PublicKey) (m : Nat) (rest : GoString) : GoString :=
  (new.lines ++ endLine keyType).take m ++ (old.lines ++ (endLine keyType ++ rest)).drop m

theorem colon_not_mem_mixed (hrest : Leftover rest) : 58 ∉ mixed old new m rest := by
  intro hmem
  rcases List.mem_append.mp hmem with hmem | hmem
  · rcases List.mem_append.mp (List.mem_of_mem_take hmem) with hmem | hmem
    · exact new.not_mem_lines.2.2 hmem
    · exact absurd hmem (by decide)
  · exact (hrest.drop old m).colon hmem

theorem beginMark_not_infix_mixed (hrest : Leftover rest) :
    ¬ beginMark <:+: mixed old new m rest := by
  intro h
  have hmark : beginMark = dashes ++ 66 :: GoString.ofASCII "EGIN " := rfl
  rw [hmark] at h
  rcases infix_append_cases h with h | h
  · have hnew : [] ++ 45 :: GoString.ofASCII "----B" <:+: new.lines ++ endLine keyType :=
      h.trans (List.take_prefix _ _).isInfix
    rcases infix_append_cases hnew with h | h
    · exact new.not_mem_lines.2.1 (h.subset List.mem_cons_self)
    · exact absurd h (by decide)
  · exact (hrest.drop old m).begins h

/-! ## What it is read as

By how much of the new file has been written: all its lines, so many as the old one has, or more. -/

section Cut

variable {bytes : List UInt8}

theorem eq_of_all_lines (hm : new.lines.length ≤ m)
    (hgroups : Base64.Groups (letters ((mixed old new m rest).takeWhile (· ≠ 45))) bytes)
    (hparse : PublicKey.parse bytes = .ok old) : old = new := by
  rw [mixed, List.take_append, List.take_of_length_le hm, List.append_assoc,
    new.takeWhile_lines (List.Subset.refl _), letters_append, new.letters_lines] at hgroups
  have hnew := Base64.groups_encode new.marshal
  have hbegins := hnew.prefix_of_take hgroups (by rw [List.take_left, List.take_length])
    hnew.length_le
  exact PublicKey.eq_of_marshal_prefix hparse hbegins

theorem eq_or_take_lines_eq (hm : m < new.lines.length) (hm' : m < old.lines.length)
    (hgroups : Base64.Groups (letters ((mixed old new m rest).takeWhile (· ≠ 45))) bytes)
    (hparse : PublicKey.parse bytes = .ok old) :
    old = new ∨ new.lines.take m = old.lines.take m := by
  have hend : (endLine keyType ++ rest).takeWhile (· ≠ 45) = [] := rfl
  have htext : (mixed old new m rest).takeWhile (· ≠ 45) = new.lines.take m ++ old.lines.drop m := by
    rw [mixed, List.take_append_of_le_length hm.le, List.drop_append_of_le_length hm'.le,
      new.takeWhile_lines (List.take_subset _ _), old.takeWhile_lines (List.drop_subset _ _), hend,
      List.append_nil]
  rw [htext, letters_append, PublicKey.letters_take_lines hm, PublicKey.letters_drop_lines hm']
    at hgroups
  have hk := PublicKey.place_le hm
  rcases Base64.Groups.length_eq_or_prefix hk (PublicKey.place_le hm') hgroups with hlen | hbegins
  · -- as long as the old encoding, and so the same
    rw [PublicKey.eq_marshal_of_length hparse hlen] at hgroups
    rcases Base64.Groups.take_eq_or_prefix hk hgroups with hsame | hbegins
    · exact .inr (PublicKey.take_lines_eq hm hm' hsame)
    · exact .inl (PublicKey.eq_of_prefix_marshal old.parse_marshal hbegins)
  · exact .inl (PublicKey.eq_of_prefix_marshal hparse hbegins)

/-- The new lines go beyond the old ones, and end within the END line or behind it. -/
theorem eq_of_more_lines (hm : m < new.lines.length) (hm' : old.lines.length ≤ m)
    (hgroups : Base64.Groups (letters ((mixed old new m rest).takeWhile (· ≠ 45))) bytes)
    (hlast : ∀ c, ((mixed old new m rest).takeWhile (· ≠ 45)).getLast? = some c → c = 10)
    (hparse : PublicKey.parse bytes = .ok old) : old = new := by
  let j := m - old.lines.length
  let behind := ((endLine keyType ++ rest).drop j).takeWhile (· ≠ 45)
  have htext : (mixed old new m rest).takeWhile (· ≠ 45) = new.lines.take m ++ behind := by
    rw [mixed, List.take_append_of_le_length hm.le, List.drop_append,
      List.drop_of_length_le hm', List.nil_append, new.takeWhile_lines (List.take_subset _ _)]
  have hk := PublicKey.place_le hm
  rw [htext, letters_append, PublicKey.letters_take_lines hm] at hgroups
  by_cases hdash : j < 5 ∨ 23 ≤ j ∧ j < 28
  · -- up to a dash: a beginning of the new text
    have hnil : behind = [] := takeWhile_drop_endLine_dash hdash rest
    rw [hnil, show letters [] = [] from rfl, List.append_nil] at hgroups
    have hle := hgroups.length_le
    rw [List.length_take_of_le hk] at hle
    exact PublicKey.eq_of_prefix_marshal hparse
      (hgroups.prefix_of_take (Base64.groups_encode _) (by rw [List.take_take, min_self]) hle)
  · by_cases hword : j < 23
    · -- up to a word of the END line: no line begins with a dash
      have hbehind : behind.getLast? = some 89 :=
        takeWhile_drop_endLine_word (by omega) hword rest
      have hend : ((mixed old new m rest).takeWhile (· ≠ 45)).getLast? = some 89 := by
        rw [htext, List.getLast?_append, hbehind]
        rfl
      exact absurd (hlast 89 hend) (by decide)
    · -- behind the END line: the new text is longer than the old key needs
      have hlong : old.marshal.length + 4 ≤ 3 * place m / 4 := by
        have hlen := (Base64.groups_encode old.marshal).length_le
        have hlines := old.length_lines
        rw [place]
        omega
      have htake : ((Base64.encode new.marshal).take (place m) ++ letters behind).take (place m) =
          (Base64.encode new.marshal).take (place m) :=
        List.take_left' (List.length_take_of_le hk)
      have hbytes := hgroups.take_eq (Base64.groups_encode new.marshal) htake
      exact PublicKey.eq_of_take_marshal hparse hbytes hlong

end Cut

/-- Where the mixed file is read as the old key, what has been written was there. -/
theorem take_prefix_of_read {type rest' : GoString} {bytes : List UInt8} (hrest : Leftover rest)
    (hdecode : decode (beginLine keyType ++ mixed old new m rest) = some (type, bytes, rest'))
    (hparse : PublicKey.parse bytes = .ok old) :
    (new.lines ++ endLine keyType).take m <+: old.lines ++ (endLine keyType ++ rest) := by
  obtain ⟨hgroups, hlast⟩ := decode_beginLine_inv (by decide) (colon_not_mem_mixed hrest)
    (beginMark_not_infix_mixed hrest) hdecode
  have hsame (heq : old = new) :
      (new.lines ++ endLine keyType).take m <+: old.lines ++ (endLine keyType ++ rest) := by
    rw [heq, ← List.append_assoc]
    exact (List.take_prefix _ _).trans (List.prefix_append _ _)
  rcases Nat.lt_or_ge m new.lines.length with hm | hm
  · rcases Nat.lt_or_ge m old.lines.length with hm' | hm'
    · rcases eq_or_take_lines_eq hm hm' hgroups hparse with heq | htake
      · exact hsame heq
      · rw [List.take_append_of_le_length hm.le, htake]
        exact (List.take_prefix _ _).trans (List.prefix_append _ _)
    · exact hsame (eq_of_more_lines hm hm' hgroups hlast hparse)
  · exact hsame (eq_of_all_lines hm hgroups hparse)

end CommonLib.XCrypto
