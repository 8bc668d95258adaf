import CommonLib.Reasoning.Base64

/-!
# Parts of Base64 texts

What a text that begins like one encoding and goes on in another way can be decoded to.
-/

namespace CommonLib.Reasoning.Base64

/-! ## The texts that can be decoded -/

def firstByte (x y : Nat) : UInt8 := .ofNat (x * 4 + y / 16)

def secondByte (y z : Nat) : UInt8 := .ofNat (y % 16 * 16 + z / 4)

def thirdByte (z w : Nat) : UInt8 := .ofNat (z % 4 * 64 + w)

/-- Groups of four letters, the last one perhaps with padding, and their bytes. -/
inductive Groups : GoString → List UInt8 → Prop
  | nil : Groups [] []
  | one {a b : UInt8} {x y : Nat} (ha : value a = some x) (hb : value b = some y) :
      Groups [a, b, pad, pad] [firstByte x y]
  | two {a b c : UInt8} {x y z : Nat} (ha : value a = some x) (hb : value b = some y)
      (hc : value c = some z) : Groups [a, b, c, pad] [firstByte x y, secondByte y z]
  | three {a b c d : UInt8} {x y z w : Nat} {s : GoString} {bytes : List UInt8}
      (ha : value a = some x) (hb : value b = some y) (hc : value c = some z)
      (hd : value d = some w) (h : Groups s bytes) :
      Groups (a :: b :: c :: d :: s) (firstByte x y :: secondByte y z :: thirdByte z w :: bytes)

theorem groups_of_decodeGroups {s : GoString} {bytes : List UInt8}
    (h : decodeGroups s = some bytes) : Groups s bytes := by
  induction s using decodeGroups.induct generalizing bytes with
  | case1 =>
      cases h
      exact .nil
  | case2 a b c d rest ih =>
      rw [decodeGroups] at h
      simp only [bind, Option.bind_eq_some_iff] at h
      obtain ⟨x, hx, y, hy, h⟩ := h
      split at h
      next hc =>
        obtain ⟨⟨rfl, rfl⟩, h⟩ := Option.ite_none_right_eq_some.mp h
        cases h
        exact hc ▸ .one hx hy
      · obtain ⟨z, hz, h⟩ := Option.bind_eq_some_iff.mp h
        split at h
        next hd =>
          obtain ⟨rfl, h⟩ := Option.ite_none_right_eq_some.mp h
          cases h
          exact hd ▸ .two hx hy hz
        · obtain ⟨w, hw, h⟩ := Option.bind_eq_some_iff.mp h
          obtain ⟨bytes', hbytes, h⟩ := Option.bind_eq_some_iff.mp h
          cases h
          exact .three hx hy hz hw (ih hbytes)
  | case3 s hnil hgroup =>
      rw [decodeGroups] at h
      · cases h
      · exact hnil
      · exact hgroup

theorem groups_encode (bytes : List UInt8) : Groups (encode bytes) bytes :=
  groups_of_decodeGroups (decodeGroups_encode bytes)

theorem value_lt {c : UInt8} {n : Nat} (h : value c = some n) : n < 64 := by
  rw [value] at h
  split_ifs at h <;> cases h <;> omega

theorem letter_of_value {c : UInt8} {n : Nat} (h : value c = some n) : letter n = c := by
  rw [value] at h
  split_ifs at h with hupper hlower hdigit hplus hslash <;> cases h <;> rw [letter]
  · rw [if_pos (by omega)]
    exact ofNat_eq (by omega)
  · rw [if_neg (by omega), if_pos (by omega)]
    exact ofNat_eq (by omega)
  · rw [if_neg (by omega), if_neg (by omega), if_pos (by omega)]
    exact ofNat_eq (by omega)
  · exact UInt8.toNat_inj.mp hplus.symm
  · exact UInt8.toNat_inj.mp hslash.symm

theorem value_pad : value pad = none := rfl

/-- Letters, and then only padding, which takes the place of the letters that have no bytes. -/
theorem Groups.padded {s : GoString} {bytes : List UInt8} (h : Groups s bytes) :
    ∃ letters n, s = letters ++ List.replicate n pad ∧ (∀ c ∈ letters, value c ≠ none) ∧
      bytes.length = 3 * letters.length / 4 := by
  induction h with
  | nil => exact ⟨[], 0, rfl, fun c hc ↦ absurd hc List.not_mem_nil, rfl⟩
  | @one a b x y ha hb =>
      refine ⟨[a, b], 2, rfl, fun c hc ↦ ?_, by simp⟩
      rcases List.mem_pair.mp hc with rfl | rfl
      · simp [ha]
      · simp [hb]
  | @two a b c x y z ha hb hc =>
      refine ⟨[a, b, c], 1, rfl, fun e he ↦ ?_, by simp⟩
      simp only [List.mem_cons, List.not_mem_nil, or_false] at he
      rcases he with rfl | rfl | rfl <;> simp [*]
  | @three a b c d x y z w s bytes ha hb hc hd _ ih =>
      obtain ⟨letters, n, rfl, hletters, hlen⟩ := ih
      refine ⟨a :: b :: c :: d :: letters, n, rfl, fun e he ↦ ?_, ?_⟩
      · simp only [List.mem_cons] at he
        rcases he with rfl | rfl | rfl | rfl | he
        · simp [ha]
        · simp [hb]
        · simp [hc]
        · simp [hd]
        · exact hletters e he
      · simp only [List.length_cons, hlen]
        omega

theorem Groups.value_or_pad {s : GoString} {bytes : List UInt8} (h : Groups s bytes) :
    ∀ c ∈ s, value c ≠ none ∨ c = pad := by
  obtain ⟨letters, n, rfl, hletters, -⟩ := h.padded
  intro c hc
  rcases List.mem_append.mp hc with hc | hc
  · exact .inl (hletters c hc)
  · exact .inr (List.eq_of_mem_replicate hc)

theorem Groups.length_le {s : GoString} {bytes : List UInt8} (h : Groups s bytes) :
    bytes.length ≤ 3 * s.length / 4 := by
  obtain ⟨letters, n, rfl, -, hlen⟩ := h.padded
  rw [hlen, List.length_append]
  omega

/-! ## Bytes from letters -/

theorem firstByte_toNat {x y : Nat} (hx : x < 64) (hy : y < 64) :
    (firstByte x y).toNat = x * 4 + y / 16 := by
  rw [firstByte, UInt8.toNat_ofNat', Nat.mod_eq_of_lt (by omega)]

theorem secondByte_toNat {y z : Nat} (hz : z < 64) :
    (secondByte y z).toNat = y % 16 * 16 + z / 4 := by
  rw [secondByte, UInt8.toNat_ofNat', Nat.mod_eq_of_lt (by omega)]

theorem thirdByte_toNat {z w : Nat} (hw : w < 64) :
    (thirdByte z w).toNat = z % 4 * 64 + w := by
  rw [thirdByte, UInt8.toNat_ofNat', Nat.mod_eq_of_lt (by omega)]

section Letters

variable {a b c d : UInt8} {x y z w : Nat}

theorem letter_first (ha : value a = some x) (hb : value b = some y) :
    letter ((firstByte x y).toNat / 4) = a := by
  have hx := value_lt ha
  have hy := value_lt hb
  rw [firstByte_toNat hx hy, show (x * 4 + y / 16) / 4 = x by omega, letter_of_value ha]

theorem letter_second (ha : value a = some x) (hb : value b = some y) (hc : value c = some z) :
    letter ((firstByte x y).toNat % 4 * 16 + (secondByte y z).toNat / 16) = b := by
  have hx := value_lt ha
  have hy := value_lt hb
  have hz := value_lt hc
  rw [firstByte_toNat hx hy, secondByte_toNat hz,
    show (x * 4 + y / 16) % 4 * 16 + (y % 16 * 16 + z / 4) / 16 = y by omega, letter_of_value hb]

theorem letter_third (hc : value c = some z) (hd : value d = some w) :
    letter ((secondByte y z).toNat % 16 * 4 + (thirdByte z w).toNat / 64) = c := by
  have hz := value_lt hc
  have hw := value_lt hd
  rw [secondByte_toNat hz, thirdByte_toNat hw,
    show (y % 16 * 16 + z / 4) % 16 * 4 + (z % 4 * 64 + w) / 64 = z by omega, letter_of_value hc]

theorem letter_fourth (hd : value d = some w) : letter ((thirdByte z w).toNat % 64) = d := by
  have hw := value_lt hd
  rw [thirdByte_toNat hw, show (z % 4 * 64 + w) % 64 = w by omega, letter_of_value hd]

end Letters

/-- Only the last letter before the padding may have bits that its bytes do not tell. -/
theorem Groups.take_eq_encode {s : GoString} {bytes : List UInt8} (h : Groups s bytes) :
    s.take (4 * bytes.length / 3) = (encode bytes).take (4 * bytes.length / 3) := by
  induction h with
  | nil => rfl
  | one ha hb =>
      simp only [List.length_singleton, Nat.reduceMul, Nat.reduceDiv, encode, List.take_succ_cons,
        List.take_zero, letter_first ha hb]
  | two ha hb hc =>
      simp only [List.length_cons, List.length_nil, Nat.reduceAdd, Nat.reduceMul, Nat.reduceDiv,
        encode, List.take_succ_cons, List.take_zero, letter_first ha hb, letter_second ha hb hc]
  | @three a b c d x y z w s bytes ha hb hc hd _ ih =>
      have hlen : 4 * (firstByte x y :: secondByte y z :: thirdByte z w :: bytes).length / 3 =
          4 * bytes.length / 3 + 4 := by
        simp only [List.length_cons]
        omega
      simp only [hlen, encode, List.take_succ_cons, letter_first ha hb, letter_second ha hb hc,
        letter_third hc hd, letter_fourth hd, ih]

/-! ## Texts that begin alike -/

/-- The bytes that a row of letters fills. -/
def bytesOf : List Nat → List UInt8
  | x :: y :: z :: w :: rest => firstByte x y :: secondByte y z :: thirdByte z w :: bytesOf rest
  | [x, y, z] => [firstByte x y, secondByte y z]
  | [x, y] => [firstByte x y]
  | _ => []

theorem bytesOf_take (l : List Nat) (k : Nat) : bytesOf (l.take k) = (bytesOf l).take (3 * k / 4) := by
  induction l using bytesOf.induct generalizing k with
  | case1 x y z w rest ih =>
      rcases k with _ | _ | _ | _ | k
      · rfl
      · rfl
      · rfl
      · rfl
      · have hk : 3 * (k + 4) / 4 = 3 * k / 4 + 3 := by omega
        simp only [List.take_succ_cons, bytesOf, hk, ih]
  | case2 x y z =>
      rcases k with _ | _ | _ | k
      · rfl
      · rfl
      · rfl
      · rw [List.take_of_length_le (by simp), List.take_of_length_le (by simp [bytesOf]; omega)]
  | case3 x y =>
      rcases k with _ | _ | k
      · rfl
      · rfl
      · rw [List.take_of_length_le (by simp), List.take_of_length_le (by simp [bytesOf]; omega)]
  | case4 l hfour hthree htwo =>
      rcases l with _ | ⟨x, _ | ⟨y, _ | ⟨z, _ | ⟨w, rest⟩⟩⟩⟩
      · simp [bytesOf]
      · cases k <;> simp [bytesOf]
      · exact absurd rfl (htwo x y)
      · exact absurd rfl (hthree x y z)
      · exact absurd rfl (hfour x y z w rest)

theorem Groups.eq_bytesOf {s : GoString} {bytes : List UInt8} (h : Groups s bytes) :
    bytes = bytesOf (s.filterMap value) := by
  induction h with
  | nil => rfl
  | one ha hb =>
      rw [List.filterMap_cons_some ha, List.filterMap_cons_some hb]
      rfl
  | two ha hb hc =>
      rw [List.filterMap_cons_some ha, List.filterMap_cons_some hb, List.filterMap_cons_some hc]
      rfl
  | three ha hb hc hd _ ih =>
      rw [List.filterMap_cons_some ha, List.filterMap_cons_some hb, List.filterMap_cons_some hc,
        List.filterMap_cons_some hd, bytesOf, ← ih]

/-- The letters come first, so that a part of the text has a part of them. -/
theorem Groups.filterMap_take {s : GoString} {bytes : List UInt8} (h : Groups s bytes) (k : Nat) :
    (s.take k).filterMap value = (s.filterMap value).take k := by
  obtain ⟨letters, n, rfl, hletters, -⟩ := h.padded
  have hpads (m : Nat) : (List.replicate m pad).filterMap value = [] := by
    rw [List.filterMap_replicate_of_none value_pad]
  rw [List.take_append, List.filterMap_append, List.filterMap_append, List.take_replicate, hpads,
    hpads, List.append_nil, List.append_nil]
  clear h
  induction letters generalizing k with
  | nil => simp
  | cons c letters ih =>
      obtain ⟨x, hx⟩ := Option.ne_none_iff_exists'.mp (hletters c List.mem_cons_self)
      cases k with
      | zero => rfl
      | succ k =>
          rw [List.take_succ_cons, List.filterMap_cons_some hx, List.filterMap_cons_some hx,
            List.take_succ_cons, ih k fun e he ↦ hletters e (List.mem_cons_of_mem c he)]

theorem Groups.take_eq_bytesOf {s : GoString} {bytes : List UInt8} (h : Groups s bytes) (k : Nat) :
    bytes.take (3 * k / 4) = bytesOf ((s.take k).filterMap value) := by
  rw [h.filterMap_take, bytesOf_take, ← h.eq_bytesOf]

/-- So many bytes as the common letters fill are the same. -/
theorem Groups.take_eq {s s' : GoString} {bytes bytes' : List UInt8} {k : Nat} (h : Groups s bytes)
    (h' : Groups s' bytes') (hs : s.take k = s'.take k) :
    bytes.take (3 * k / 4) = bytes'.take (3 * k / 4) := by
  rw [h.take_eq_bytesOf, h'.take_eq_bytesOf, hs]

/-- A text that is the beginning of another one. -/
theorem Groups.prefix_of_take {s s' : GoString} {bytes bytes' : List UInt8} {k : Nat}
    (h : Groups s bytes) (h' : Groups s' bytes') (hs : s.take k = s'.take k)
    (hk : bytes.length ≤ 3 * k / 4) : bytes <+: bytes' := by
  have htake := h.take_eq h' hs
  rw [List.take_of_length_le hk] at htake
  rw [htake]
  exact List.take_prefix _ _

/-- The beginning of one encoding and the rest of another: it has as many bytes as the second, or its
bytes are a beginning of those of the first. -/
theorem Groups.length_eq_or_prefix {old new bytes : List UInt8} {k : Nat}
    (hnew : k ≤ (encode new).length) (hold : k ≤ (encode old).length)
    (h : Groups ((encode new).take k ++ (encode old).drop k) bytes) :
    bytes.length = old.length ∨ bytes <+: new := by
  have htake : ((encode new).take k ++ (encode old).drop k).take k = (encode new).take k :=
    List.take_left' (by rw [List.length_take, min_eq_left hnew])
  by_cases hlen : bytes.length ≤ 3 * k / 4
  · exact .inr (h.prefix_of_take (groups_encode new) htake hlen)
  · -- the padding is that of the second text
    left
    have hdrop : ((encode new).take k ++ (encode old).drop k).drop k = (encode old).drop k :=
      List.drop_left' (by rw [List.length_take, min_eq_left hnew])
    have htotal : ((encode new).take k ++ (encode old).drop k).length = (encode old).length := by
      rw [List.length_append, List.length_take, List.length_drop]
      omega
    obtain ⟨letters, n, hs, hletters, hbytes⟩ := h.padded
    obtain ⟨letters', n', hs', hletters', hbytes'⟩ := (groups_encode old).padded
    have hcount : ∀ l : GoString, (∀ c ∈ l, value c ≠ none) → l.count pad = 0 := fun l hl ↦
      List.count_eq_zero_of_not_mem fun hmem ↦ hl pad hmem value_pad
    have hpads : (((encode new).take k ++ (encode old).drop k).drop k).count pad = n := by
      rw [hs, List.drop_append_of_le_length (by omega), List.count_append,
        hcount _ fun c hc ↦ hletters c (List.mem_of_mem_drop hc), List.count_replicate_self,
        zero_add]
    have hpads' : ((encode old).drop k).count pad = n' - (k - letters'.length) := by
      rw [hs', List.drop_append, List.count_append,
        hcount _ fun c hc ↦ hletters' c (List.mem_of_mem_drop hc), List.drop_replicate,
        List.count_replicate_self, zero_add]
    rw [hdrop, hpads'] at hpads
    rw [hs, hs', List.length_append, List.length_append, List.length_replicate,
      List.length_replicate] at htotal
    have hold' := congrArg List.length hs'
    rw [List.length_append, List.length_replicate] at hold'
    rw [hbytes, hbytes']
    congr 2
    omega

/-- If it is decoded to the bytes of the second, it is the second text; or the bytes of the second are
a beginning of those of the first. -/
theorem Groups.take_eq_or_prefix {old new : List UInt8} {k : Nat} (hnew : k ≤ (encode new).length)
    (h : Groups ((encode new).take k ++ (encode old).drop k) old) :
    (encode new).take k = (encode old).take k ∨ old <+: new := by
  have htake : ((encode new).take k ++ (encode old).drop k).take k = (encode new).take k :=
    List.take_left' (by rw [List.length_take, min_eq_left hnew])
  by_cases hk : k ≤ 4 * old.length / 3
  · left
    have hsame := congrArg (List.take k) h.take_eq_encode
    rwa [List.take_take, List.take_take, min_eq_left hk, htake] at hsame
  · right
    exact h.prefix_of_take (groups_encode new) htake (by omega)

end CommonLib.Reasoning.Base64
