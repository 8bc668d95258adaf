import CommonLib.Reasoning.GoString

/-! Texts made valid: bytes that are not UTF-8 are replaced one by one.  And their characters. -/

namespace CommonLib.Reasoning.UTF8

/-- The ranges of the bytes after a first byte. -/
def continuation (b : UInt8) : Option (List (UInt8 × UInt8)) :=
  if b < 0x80 then some []
  else if 0xC2 ≤ b ∧ b ≤ 0xDF then some [(0x80, 0xBF)]
  else if b = 0xE0 then some [(0xA0, 0xBF), (0x80, 0xBF)]
  else if b = 0xED then some [(0x80, 0x9F), (0x80, 0xBF)]
  else if 0xE1 ≤ b ∧ b ≤ 0xEF then some [(0x80, 0xBF), (0x80, 0xBF)]
  else if b = 0xF0 then some [(0x90, 0xBF), (0x80, 0xBF), (0x80, 0xBF)]
  else if 0xF1 ≤ b ∧ b ≤ 0xF3 then some [(0x80, 0xBF), (0x80, 0xBF), (0x80, 0xBF)]
  else if b = 0xF4 then some [(0x80, 0x8F), (0x80, 0xBF), (0x80, 0xBF)]
  else none

def follows : List (UInt8 × UInt8) → GoString → Bool
  | [], _ => true
  | _ :: _, [] => false
  | (low, high) :: ranges, b :: s => low ≤ b && b ≤ high && follows ranges s

/-- U+FFFD. -/
def replacement : GoString := [0xEF, 0xBF, 0xBD]

/-- The first `skip` bytes belong to a character that has been read. -/
def toValidAfter : Nat → GoString → GoString
  | _, [] => []
  | skip + 1, b :: s => b :: toValidAfter skip s
  | 0, b :: s =>
      match continuation b with
      | none => replacement ++ toValidAfter 0 s
      | some ranges =>
          if follows ranges s then b :: toValidAfter ranges.length s
          else replacement ++ toValidAfter 0 s

def toValid (s : GoString) : GoString := toValidAfter 0 s

theorem continuation_ascii {a : UInt8} (ha : a < 0x80) : continuation a = some [] := if_pos ha

/-- The bytes after the first are none of ASCII. -/
theorem le_of_continuation {b : UInt8} {ranges : List (UInt8 × UInt8)}
    (h : continuation b = some ranges) : ∀ range ∈ ranges, (0x80 : UInt8) ≤ range.1 := by
  unfold continuation at h
  split_ifs at h <;> cases h <;> simp

theorem follows_append_ascii {ranges : List (UInt8 × UInt8)}
    (hranges : ∀ range ∈ ranges, (0x80 : UInt8) ≤ range.1) {a : UInt8} (ha : a < 0x80)
    (pre post : GoString) : follows ranges (pre ++ a :: post) = follows ranges pre := by
  induction ranges generalizing pre with
  | nil => rfl
  | cons range ranges ih =>
      have hlow := hranges range List.mem_cons_self
      cases pre with
      | nil =>
          have hnot : ¬ range.1 ≤ a := fun hle ↦
            UInt8.not_le.mpr ha (UInt8.le_trans hlow hle)
          simp [follows, hnot]
      | cons b pre =>
          rw [List.cons_append, follows, follows,
            ih (fun r hr ↦ hranges r (List.mem_cons_of_mem _ hr))]

theorem length_le_of_follows {ranges : List (UInt8 × UInt8)} {s : GoString}
    (h : follows ranges s = true) : ranges.length ≤ s.length := by
  induction ranges generalizing s with
  | nil => exact Nat.zero_le _
  | cons range ranges ih =>
      cases s with
      | nil => cases h
      | cons b s =>
          rw [follows, Bool.and_eq_true] at h
          exact Nat.succ_le_succ (ih h.2)

theorem toValidAfter_append_ascii {a : UInt8} (ha : a < 0x80) (pre post : GoString) {skip : Nat}
    (hskip : skip ≤ pre.length) :
    toValidAfter skip (pre ++ a :: post) = toValidAfter skip pre ++ a :: toValidAfter 0 post := by
  induction pre generalizing skip with
  | nil =>
      cases Nat.le_zero.mp hskip
      simp [toValidAfter, continuation_ascii ha, follows]
  | cons b pre ih =>
      cases skip with
      | succ skip =>
          simp only [List.cons_append, toValidAfter]
          rw [ih (Nat.le_of_succ_le_succ hskip)]
      | zero =>
          simp only [List.cons_append, toValidAfter]
          cases hb : continuation b with
          | none =>
              dsimp only
              rw [ih (Nat.zero_le _), List.append_assoc]
          | some ranges =>
              dsimp only
              rw [follows_append_ascii (le_of_continuation hb) ha]
              split
              next hfollows =>
                -- a character is never cut by an ASCII byte
                rw [ih (length_le_of_follows hfollows), List.cons_append]
              next => rw [ih (Nat.zero_le _), List.append_assoc]

theorem toValid_append_ascii {a : UInt8} (ha : a < 0x80) (pre post : GoString) :
    toValid (pre ++ a :: post) = toValid pre ++ a :: toValid post :=
  toValidAfter_append_ascii ha pre post (Nat.zero_le _)

/-! ## Well-formed characters -/

/-- The bytes of one character. -/
def IsChar : GoString → Prop
  | [] => False
  | b :: s => ∃ ranges, continuation b = some ranges ∧ ranges.length = s.length ∧
      follows ranges s = true

theorem isChar_replacement : IsChar replacement := ⟨[(0x80, 0xBF), (0x80, 0xBF)], rfl, rfl, rfl⟩

theorem follows_append {ranges : List (UInt8 × UInt8)} {s : GoString}
    (h : ranges.length ≤ s.length) (t : GoString) :
    follows ranges (s ++ t) = follows ranges s := by
  induction ranges generalizing s with
  | nil => rfl
  | cons range ranges ih =>
      cases s with
      | nil => cases h
      | cons b s => rw [List.cons_append, follows, follows, ih (Nat.le_of_succ_le_succ h)]

theorem follows_take {ranges : List (UInt8 × UInt8)} {s : GoString} (h : follows ranges s = true) :
    follows ranges (s.take ranges.length) = true := by
  have hlen : ranges.length ≤ (s.take ranges.length).length := by
    rw [List.length_take, min_eq_left (length_le_of_follows h)]
  rwa [← follows_append hlen (s.drop ranges.length), List.take_append_drop]

theorem toValidAfter_length_append (s t : GoString) :
    toValidAfter s.length (s ++ t) = s ++ toValid t := by
  induction s with
  | nil =>
      -- `toValidAfter` looks at the text first
      cases t <;> rfl
  | cons b s ih => rw [List.cons_append, List.length_cons, toValidAfter, ih, List.cons_append]

theorem toValid_char_append {c : GoString} (hc : IsChar c) (t : GoString) :
    toValid (c ++ t) = c ++ toValid t := by
  cases c with
  | nil => exact absurd hc id
  | cons b s =>
      obtain ⟨ranges, hb, hlen, hfollows⟩ := hc
      have hfollows' : follows ranges (s ++ t) = true :=
        (follows_append hlen.le t).trans hfollows
      rw [List.cons_append, toValid, toValidAfter, hb]
      dsimp only
      rw [if_pos hfollows', hlen, toValidAfter_length_append, List.cons_append]

/-! ## Texts as their characters -/

/-- The characters, with `none` for a byte that belongs to none; the first `skip` bytes belong to a
character that has been read. -/
def runesAfter : Nat → GoString → List (Option GoString)
  | _, [] => []
  | skip + 1, _ :: s => runesAfter skip s
  | 0, b :: s =>
      match continuation b with
      | none => none :: runesAfter 0 s
      | some ranges =>
          if follows ranges s then some (b :: s.take ranges.length) :: runesAfter ranges.length s
          else none :: runesAfter 0 s

def runes (s : GoString) : List (Option GoString) := runesAfter 0 s

theorem isChar_of_mem_runesAfter {s c : GoString} {skip : Nat} (h : some c ∈ runesAfter skip s) :
    IsChar c := by
  induction s generalizing skip with
  | nil => cases h
  | cons b s ih =>
      cases skip with
      | succ skip => exact ih h
      | zero =>
          rw [runesAfter] at h
          split at h
          · exact ih (List.mem_of_ne_of_mem (Option.some_ne_none c) h)
          next ranges hb =>
            split at h
            next hfollows =>
              rcases List.mem_cons.mp h with heq | h
              · cases heq
                have hlen : ranges.length = (s.take ranges.length).length := by
                  rw [List.length_take, min_eq_left (length_le_of_follows hfollows)]
                exact ⟨ranges, hb, hlen, follows_take hfollows⟩
              · exact ih h
            next => exact ih (List.mem_of_ne_of_mem (Option.some_ne_none c) h)

theorem toValidAfter_eq_flatMap (skip : Nat) (s : GoString) :
    toValidAfter skip s = s.take skip ++ (runesAfter skip s).flatMap (·.getD replacement) := by
  induction s generalizing skip with
  | nil => rw [toValidAfter, runesAfter, List.take_nil, List.flatMap_nil, List.append_nil]
  | cons b s ih =>
      cases skip with
      | succ skip => rw [toValidAfter, runesAfter, ih, List.take_succ_cons, List.cons_append]
      | zero =>
          rw [toValidAfter, runesAfter, List.take_zero, List.nil_append]
          cases continuation b with
          | none =>
              dsimp only
              rw [ih, List.take_zero, List.nil_append, List.flatMap_cons, Option.getD_none]
          | some ranges =>
              dsimp only
              split
              · rw [ih, List.flatMap_cons, Option.getD_some, List.cons_append]
              · rw [ih, List.take_zero, List.nil_append, List.flatMap_cons, Option.getD_none]

theorem toValid_eq_flatMap (s : GoString) :
    toValid s = (runes s).flatMap (·.getD replacement) :=
  toValidAfter_eq_flatMap 0 s

/-- What has been made valid stays as it is. -/
theorem toValid_toValid (s : GoString) : toValid (toValid s) = toValid s := by
  have hchars : ∀ rs : List (Option GoString), (∀ c, some c ∈ rs → IsChar c) →
      toValid (rs.flatMap (·.getD replacement)) = rs.flatMap (·.getD replacement) := by
    intro rs hrs
    induction rs with
    | nil => rfl
    | cons r rs ih =>
        have hchar : IsChar (r.getD replacement) := by
          cases r with
          | none => exact isChar_replacement
          | some c => exact hrs c List.mem_cons_self
        rw [List.flatMap_cons, toValid_char_append hchar,
          ih fun c hc ↦ hrs c (List.mem_cons_of_mem r hc)]
  rw [toValid_eq_flatMap s]
  exact hchars _ fun c hc ↦ isChar_of_mem_runesAfter hc

/-! ## Characters -/

/-- The characters, each as its bytes, of which there are at most `fuel`. -/
def charsWithin : Nat → GoString → List GoString
  | 0, _ => []
  | _ + 1, [] => []
  | fuel + 1, b :: s =>
      match continuation b with
      | none => replacement :: charsWithin fuel s
      | some ranges =>
          if follows ranges s then
            (b :: s.take ranges.length) :: charsWithin fuel (s.drop ranges.length)
          else replacement :: charsWithin fuel s

def chars (s : GoString) : List GoString := charsWithin s.length s

theorem chars_ascii {s : GoString} (h : ∀ b ∈ s, b < 0x80) : chars s = s.map fun b ↦ [b] := by
  rw [chars]
  induction s with
  | nil => rfl
  | cons b s ih =>
      rw [List.length_cons, charsWithin, continuation_ascii (h b List.mem_cons_self)]
      simp [follows, ih fun c hc ↦ h c (List.mem_cons_of_mem b hc)]

def isUpper (b : UInt8) : Bool := 65 ≤ b && b ≤ 90

def isLower (b : UInt8) : Bool := 97 ≤ b && b ≤ 122

/-- The tables of package `unicode`, of which only ASCII is fixed. -/
structure Unicode where
  isLetter : GoString → Bool
  toLower : GoString → GoString
  isLetter_ascii : ∀ b < 0x80, isLetter [b] = (isUpper b || isLower b)
  toLower_ascii : ∀ b < 0x80, toLower [b] = [if isUpper b then b + 32 else b]

theorem Unicode.map_toLower (unicode : Unicode) {s : GoString}
    (h : ∀ b ∈ s, b < 0x80 ∧ isUpper b = false) :
    (chars s).map unicode.toLower = s.map fun b ↦ [b] := by
  rw [chars_ascii fun b hb ↦ (h b hb).1, List.map_map]
  refine List.map_congr_left fun b hb ↦ ?_
  rw [Function.comp_apply, unicode.toLower_ascii b (h b hb).1, (h b hb).2]
  rfl

end CommonLib.Reasoning.UTF8
