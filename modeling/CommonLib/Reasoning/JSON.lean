import CommonLib.Reasoning.Text
import CommonLib.Reasoning.UTF8

/-!
# JSON texts of flat objects

What `encoding/json` writes for an object of texts, integers, booleans and nulls, in one line or
indented, and a reader that gives the object back.
-/

namespace CommonLib.Reasoning.JSON

open UTF8
open GoString (hexDigit hexValue hexValue_hexDigit)

/-! ## Texts in quotes -/

/-- A byte, or its escape: of control characters, quotes, backslashes, and what HTML gives a meaning
to. -/
def escape (b : UInt8) : GoString :=
  if b = 34 ∨ b = 92 then [92, b]
  else if b = 8 then [92, 98]
  else if b = 12 then [92, 102]
  else if b = 10 then [92, 110]
  else if b = 13 then [92, 114]
  else if b = 9 then [92, 116]
  else if b < 32 ∨ b = 60 ∨ b = 62 ∨ b = 38 then
    [92, 117, 48, 48, hexDigit (b.toNat / 16), hexDigit (b.toNat % 16)]
  else [b]

def escapeRune : Option GoString → GoString
  | none => .ofASCII "\\ufffd"
  | some c =>
      if c = [0xE2, 0x80, 0xA8] then .ofASCII "\\u2028"
      else if c = [0xE2, 0x80, 0xA9] then .ofASCII "\\u2029"
      else c.flatMap escape

def quote (s : GoString) : GoString := 34 :: ((runes s).flatMap escapeRune ++ [34])

/-! ### Reading them -/

def hex4 : GoString → Option Nat
  | a :: b :: c :: d :: _ => do
      let a ← hexValue a
      let b ← hexValue b
      let c ← hexValue c
      let d ← hexValue d
      some (((a * 16 + b) * 16 + c) * 16 + d)
  | _ => none

/-- The bytes of a code point; a surrogate has none. -/
def encodeRune (u : Nat) : GoString :=
  if u < 0x80 then [.ofNat u]
  else if u < 0x800 then [.ofNat (0xC0 + u / 64), .ofNat (0x80 + u % 64)]
  else if 0xD800 ≤ u ∧ u < 0xE000 then replacement
  else if u < 0x10000 then
    [.ofNat (0xE0 + u / 4096), .ofNat (0x80 + u / 64 % 64), .ofNat (0x80 + u % 64)]
  else
    [.ofNat (0xF0 + u / 262144), .ofNat (0x80 + u / 4096 % 64), .ofNat (0x80 + u / 64 % 64),
      .ofNat (0x80 + u % 64)]

/-- The second half of a surrogate pair, which must follow the first half at once. -/
def lowSurrogate : GoString → Option Nat
  | a :: b :: s =>
      if a = 92 ∧ b = 117 then (hex4 s).filter fun u ↦ 0xDC00 ≤ u ∧ u < 0xE000 else none
  | _ => none

/-- What the escape after a backslash stands for, and how many bytes it takes. -/
def escaped : GoString → Option (GoString × Nat)
  | [] => none
  | c :: s =>
      if c = 34 ∨ c = 92 ∨ c = 47 then some ([c], 1)
      else if c = 98 then some ([8], 1)
      else if c = 102 then some ([12], 1)
      else if c = 110 then some ([10], 1)
      else if c = 114 then some ([13], 1)
      else if c = 116 then some ([9], 1)
      else if c = 117 then
        match hex4 s with
        | none => none
        | some u =>
            if 0xD800 ≤ u ∧ u < 0xDC00 then
              match lowSurrogate (s.drop 4) with
              | some v => some (encodeRune (0x10000 + (u - 0xD800) * 1024 + (v - 0xDC00)), 11)
              | none => some (replacement, 5)
            else some (encodeRune u, 5)
      else none

/-- The bytes up to the closing quote, and what follows it; the first `skip` bytes belong to an
escape that has been read. -/
def unescape : Nat → GoString → Option (GoString × GoString)
  | _, [] => none
  | skip + 1, _ :: s => unescape skip s
  | 0, b :: s =>
      if b = 34 then some ([], s)
      else if b = 92 then
        match escaped s with
        | none => none
        | some (c, n) => (unescape n s).map (.map (c ++ ·) id)
      else if b < 32 then none
      else (unescape 0 s).map (.map (b :: ·) id)

/-- The text in the quotes.  An escape stands for a whole character, so that the bytes that belong to
none can be replaced at the end. -/
def unquote : GoString → Option (GoString × GoString)
  | [] => none
  | b :: s => if b = 34 then (unescape 0 s).map (.map toValid id) else none

theorem hex4_byte {n : Nat} (h : n < 256) (s : GoString) :
    hex4 (48 :: 48 :: hexDigit (n / 16) :: hexDigit (n % 16) :: s) = some n := by
  have hzero : hexValue 48 = some 0 := rfl
  rw [hex4, hzero, hexValue_hexDigit _ (by omega), hexValue_hexDigit _ (by omega)]
  change some (((0 * 16 + 0) * 16 + n / 16) * 16 + n % 16) = some n
  congr 1
  omega

theorem unescape_skip (c s : GoString) : unescape c.length (c ++ s) = unescape 0 s := by
  induction c with
  | nil => cases s <;> rfl
  | cons b c ih => exact ih

/-- An escape of so many bytes after the backslash. -/
theorem unescape_escaped {e c : GoString} (s : GoString)
    (h : escaped (e ++ s) = some (c, e.length)) :
    unescape 0 (92 :: e ++ s) = (unescape 0 s).map (.map (c ++ ·) id) := by
  rw [List.cons_append, unescape, if_neg (by decide), if_pos rfl, h]
  dsimp only
  rw [unescape_skip]

theorem unescape_plain {b : UInt8} (hquote : b ≠ 34) (hslash : b ≠ 92) (hprint : ¬ b < 32)
    (s : GoString) : unescape 0 (b :: s) = (unescape 0 s).map (.map (b :: ·) id) := by
  rw [unescape, if_neg hquote, if_neg hslash, if_neg hprint]

theorem unescape_escape (b : UInt8) (s : GoString) :
    unescape 0 (escape b ++ s) = (unescape 0 s).map (.map ([b] ++ ·) id) := by
  unfold escape
  split_ifs with hslash hback hfeed hline hreturn htab hcode
  · rcases hslash with rfl | rfl
    · exact unescape_escaped (e := [34]) s rfl
    · exact unescape_escaped (e := [92]) s rfl
  · subst hback
    exact unescape_escaped (e := [98]) s rfl
  · subst hfeed
    exact unescape_escaped (e := [102]) s rfl
  · subst hline
    exact unescape_escaped (e := [110]) s rfl
  · subst hreturn
    exact unescape_escaped (e := [114]) s rfl
  · subst htab
    exact unescape_escaped (e := [116]) s rfl
  · have hlt : b.toNat < 0x80 := by
      rcases hcode with hcontrol | rfl | rfl | rfl
      · exact Nat.lt_trans (UInt8.lt_iff_toNat_lt.mp hcontrol) (by decide)
      all_goals decide
    have hrune : encodeRune b.toNat = [b] := by
      rw [encodeRune, if_pos hlt, UInt8.ofNat_toNat]
    refine unescape_escaped (e := [117, 48, 48, hexDigit (b.toNat / 16), hexDigit (b.toNat % 16)])
      s ?_
    change (match hex4 (48 :: 48 :: hexDigit (b.toNat / 16) :: hexDigit (b.toNat % 16) :: s) with
      | none => none
      | some u => _) = _
    rw [hex4_byte (by omega)]
    dsimp only
    rw [if_neg (by omega), hrune]
    rfl
  · rw [not_or] at hslash hcode
    exact unescape_plain hslash.1 hslash.2 hcode.1 s

theorem unescape_flatMap (c s : GoString) :
    unescape 0 (c.flatMap escape ++ s) = (unescape 0 s).map (.map (c ++ ·) id) := by
  induction c with
  | nil => exact Option.map_id'.symm
  | cons b c ih =>
      rw [List.flatMap_cons, List.append_assoc, unescape_escape, ih, Option.map_map]
      rfl

theorem unescape_rune (r : Option GoString) (s : GoString) :
    unescape 0 (escapeRune r ++ s) =
      (unescape 0 s).map (.map (r.getD replacement ++ ·) id) := by
  cases r with
  | none => exact unescape_escaped (e := .ofASCII "ufffd") s rfl
  | some c =>
      rw [escapeRune]
      split_ifs with hline hparagraph
      · subst hline
        exact unescape_escaped (e := .ofASCII "u2028") s rfl
      · subst hparagraph
        exact unescape_escaped (e := .ofASCII "u2029") s rfl
      · exact unescape_flatMap c s

theorem unescape_runes (rs : List (Option GoString)) (rest : GoString) :
    unescape 0 (rs.flatMap escapeRune ++ 34 :: rest) =
      some (rs.flatMap (·.getD replacement), rest) := by
  induction rs with
  | nil => rfl
  | cons r rs ih =>
      rw [List.flatMap_cons, List.append_assoc, unescape_rune, ih]
      rfl

theorem unquote_quote (s rest : GoString) :
    unquote (quote s ++ rest) = some (toValid s, rest) := by
  rw [quote, List.cons_append, List.append_assoc, unquote, if_pos rfl, List.singleton_append,
    unescape_runes, ← toValid_eq_flatMap]
  change some (toValid (toValid s), rest) = _
  rw [toValid_toValid]

/-! ## Values -/

inductive Value
  | null
  | bool (v : Bool)
  | number (v : Int)
  | string (v : GoString)
deriving DecidableEq, Repr

namespace Value

def text : Value → GoString
  | .null => .ofASCII "null"
  | .bool true => .ofASCII "true"
  | .bool false => .ofASCII "false"
  | .number v => (if v < 0 then [45] else []) ++ GoString.formatDecimal v.natAbs
  | .string v => quote v

/-- The value as a text can carry it. -/
def valid : Value → Value
  | .string v => .string (toValid v)
  | v => v

/-- The digits at the beginning. -/
def readDigits (s : GoString) : Option (Nat × GoString) :=
  let digits := s.takeWhile (GoString.IsDigit ·)
  (GoString.decimal digits).map fun n ↦ (n, s.drop digits.length)

/-- The rest of a text that begins with the word. -/
def readWord (word : String) (s : GoString) : Option GoString :=
  if (GoString.ofASCII word).isPrefixOf s then some (s.drop word.length) else none

/-- The value at the beginning; a number is an integer. -/
def read : GoString → Option (Value × GoString)
  | [] => none
  | b :: s =>
      if b = 34 then (unquote (b :: s)).map fun (v, rest) ↦ (.string v, rest)
      else if b = 45 then (readDigits s).map fun (n, rest) ↦ (.number (-n), rest)
      else if GoString.IsDigit b then (readDigits (b :: s)).map fun (n, rest) ↦ (.number n, rest)
      else
        ((readWord "null" (b :: s)).map fun rest ↦ (.null, rest)) <|>
          ((readWord "true" (b :: s)).map fun rest ↦ (.bool true, rest)) <|>
            ((readWord "false" (b :: s)).map fun rest ↦ (.bool false, rest))

theorem readDigits_formatDecimal (n : Nat) {rest : GoString}
    (hrest : ∀ b, rest.head? = some b → ¬ GoString.IsDigit b) :
    readDigits (GoString.formatDecimal n ++ rest) = some (n, rest) := by
  have hdigits : ∀ c ∈ GoString.formatDecimal n, decide (GoString.IsDigit c) = true := fun c hc ↦
    decide_eq_true (GoString.isDigit_of_mem_formatDecimal hc)
  have htake : (GoString.formatDecimal n ++ rest).takeWhile (fun c ↦ decide (GoString.IsDigit c)) =
      GoString.formatDecimal n := by
    rw [List.takeWhile_append_of_pos hdigits]
    cases rest with
    | nil => rw [List.takeWhile_nil, List.append_nil]
    | cons b rest =>
        rw [List.takeWhile_cons_of_neg (by simpa using hrest b rfl), List.append_nil]
  rw [readDigits, htake, GoString.decimal_formatDecimal, List.drop_left]
  rfl

theorem read_number (v : Int) {rest : GoString}
    (hrest : ∀ b, rest.head? = some b → ¬ GoString.IsDigit b) :
    read (text (.number v) ++ rest) = some (.number v, rest) := by
  rw [text]
  split
  next hneg =>
    rw [List.singleton_append, List.cons_append, read, if_neg (by decide), if_pos rfl,
      readDigits_formatDecimal _ hrest]
    change some (Value.number (-(v.natAbs : Int)), rest) = _
    rw [Int.ofNat_natAbs_of_nonpos hneg.le, neg_neg]
  next hpos =>
    obtain ⟨b, s, hs⟩ := List.exists_cons_of_ne_nil (GoString.formatDecimal_ne_nil v.natAbs)
    have hb : GoString.IsDigit b :=
      GoString.isDigit_of_mem_formatDecimal (hs ▸ List.mem_cons_self)
    have hquote : b ≠ 34 := fun heq ↦ absurd (heq ▸ hb) (by decide)
    have hminus : b ≠ 45 := fun heq ↦ absurd (heq ▸ hb) (by decide)
    have hread := readDigits_formatDecimal v.natAbs hrest
    rw [hs, List.cons_append] at hread
    rw [List.nil_append, hs, List.cons_append, read, if_neg hquote, if_neg hminus, if_pos hb, hread]
    change some (Value.number (v.natAbs : Int), rest) = _
    rw [Int.natAbs_of_nonneg (not_lt.mp hpos)]

/-- A number must not be followed by another digit. -/
theorem read_text (v : Value) {rest : GoString}
    (hrest : ∀ b, rest.head? = some b → ¬ GoString.IsDigit b) :
    read (v.text ++ rest) = some (v.valid, rest) := by
  cases v with
  | null => rfl
  | bool v => cases v <;> rfl
  | number v => exact read_number v hrest
  | string v =>
      have hunquote := unquote_quote v rest
      rw [quote, List.cons_append] at hunquote
      rw [text, quote, List.cons_append, read, if_pos rfl, hunquote]
      rfl

end Value

/-! ## White space -/

def isSpace (b : UInt8) : Bool := b == 32 || b == 9 || b == 10 || b == 13

def skipSpace (s : GoString) : GoString := s.dropWhile isSpace

/-- The rest after white space and one byte. -/
def expect (b : UInt8) (s : GoString) : Option GoString :=
  match skipSpace s with
  | [] => none
  | c :: rest => if c = b then some rest else none

theorem isSpace_of_isDigit {b : UInt8} (h : GoString.IsDigit b) : isSpace b = false := by
  by_contra hspace
  simp only [isSpace, Bool.not_eq_false, Bool.or_eq_true, beq_iff_eq] at hspace
  rcases hspace with ((rfl | rfl) | rfl) | rfl <;> exact absurd h (by decide)

section Space

variable {space : GoString} (hspace : space.all isSpace = true)
include hspace

theorem skipSpace_append (s : GoString) : skipSpace (space ++ s) = skipSpace s :=
  List.dropWhile_append_of_pos (List.all_eq_true.mp hspace)

theorem skipSpace_cons {c : UInt8} (hc : isSpace c = false) (s : GoString) :
    skipSpace (space ++ c :: s) = c :: s := by
  rw [skipSpace_append hspace, skipSpace, List.dropWhile_cons_of_neg (by rw [hc]; simp)]

theorem expect_cons {c : UInt8} (hc : isSpace c = false) (b : UInt8) (s : GoString) :
    expect b (space ++ c :: s) = if c = b then some s else none := by
  rw [expect, skipSpace_cons hspace hc]

/-- White space ends a number, as what is no digit does. -/
theorem not_isDigit_head {c : UInt8} (hc : ¬ GoString.IsDigit c) (s : GoString) :
    ∀ b, (space ++ c :: s).head? = some b → ¬ GoString.IsDigit b := by
  intro b hb
  cases space with
  | nil =>
      cases hb
      exact hc
  | cons d space =>
      cases hb
      intro hdigit
      have hb := List.all_eq_true.mp hspace b List.mem_cons_self
      rw [isSpace_of_isDigit hdigit] at hb
      cases hb

end Space

theorem expect_self {b : UInt8} (hb : isSpace b = false) (s : GoString) :
    expect b (b :: s) = some s := by
  rw [← List.nil_append (b :: s), expect_cons rfl hb, if_pos rfl]

theorem Value.text_eq_cons (v : Value) : ∃ b s, v.text = b :: s ∧ isSpace b = false := by
  cases v with
  | null => exact ⟨110, GoString.ofASCII "ull", rfl, rfl⟩
  | bool v =>
      cases v with
      | true => exact ⟨116, GoString.ofASCII "rue", rfl, rfl⟩
      | false => exact ⟨102, GoString.ofASCII "alse", rfl, rfl⟩
  | string v => exact ⟨34, _, rfl, rfl⟩
  | number v =>
      rw [text]
      split
      · exact ⟨45, _, rfl, rfl⟩
      · obtain ⟨b, s, hs⟩ := List.exists_cons_of_ne_nil (GoString.formatDecimal_ne_nil v.natAbs)
        have hb : GoString.IsDigit b :=
          GoString.isDigit_of_mem_formatDecimal (hs ▸ List.mem_cons_self)
        exact ⟨b, s, by rw [List.nil_append, hs], isSpace_of_isDigit hb⟩

/-! ## Objects -/

abbrev Member := GoString × Value

def Member.valid (m : Member) : Member := (toValid m.1, m.2.valid)

/-- The white space before a member, before its value, and after the last member. -/
structure Layout where
  before : GoString
  value : GoString
  after : GoString
  before_space : before.all isSpace = true
  value_space : value.all isSpace = true
  after_space : after.all isSpace = true

namespace Layout

/-- `json.Marshal`. -/
def compact : Layout := ⟨[], [], [], rfl, rfl, rfl⟩

/-- `json.MarshalIndent(v, "", "  ")`. -/
def indented : Layout := ⟨[10, 32, 32], [32], [10], rfl, rfl, rfl⟩

variable (layout : Layout)

def member (m : Member) : GoString :=
  layout.before ++ (quote m.1 ++ 58 :: (layout.value ++ m.2.text))

def members : List Member → GoString
  | [] => []
  | [m] => layout.member m ++ layout.after
  | m :: m' :: rest => layout.member m ++ 44 :: members (m' :: rest)

def object (ms : List Member) : GoString := 123 :: (layout.members ms ++ [125])

end Layout

def readMember (s : GoString) : Option (Member × GoString) := do
  let (k, s) ← unquote (skipSpace s)
  let s ← expect 58 s
  let (v, s) ← Value.read (skipSpace s)
  some ((k, v), s)

/-- The members up to the closing brace, of which there are at most `fuel`, and what follows it. -/
def readMembers : Nat → GoString → Option (List Member × GoString)
  | 0, _ => none
  | fuel + 1, s => do
      let (m, s) ← readMember s
      match expect 44 s with
      | some s => do
          let (ms, s) ← readMembers fuel s
          some (m :: ms, s)
      | none => do
          let s ← expect 125 s
          some ([m], s)

def readObject (s : GoString) : Option (List Member) := do
  let s ← expect 123 s
  let (ms, s) ← match expect 125 s with
    | some s => some ([], s)
    | none => readMembers s.length s
  if skipSpace s = [] then some ms else none

section Objects

variable (layout : Layout)

theorem readMember_member (m : Member) {rest : GoString}
    (hrest : ∀ b, rest.head? = some b → ¬ GoString.IsDigit b) :
    readMember (layout.member m ++ rest) = some (m.valid, rest) := by
  obtain ⟨b, s, hvalue, hb⟩ := m.2.text_eq_cons
  have hread := m.2.read_text hrest
  have hskip : skipSpace (layout.value ++ (m.2.text ++ rest)) = m.2.text ++ rest := by
    rw [hvalue, List.cons_append, skipSpace_cons layout.value_space hb]
  have hquote : skipSpace (layout.before ++ (quote m.1 ++ 58 :: (layout.value ++ (m.2.text ++ rest)))) =
      quote m.1 ++ 58 :: (layout.value ++ (m.2.text ++ rest)) := by
    rw [quote, List.cons_append, skipSpace_cons layout.before_space rfl]
  simp only [readMember, Layout.member, List.append_assoc, List.cons_append, hquote, unquote_quote,
    expect_self (rfl : isSpace 58 = false), hskip, hread, bind, Option.bind_some]
  rfl

theorem members_append_ne (ms : List Member) (hne : ms ≠ []) (rest : GoString) :
    ∃ s, layout.members ms ++ rest = layout.before ++ 34 :: s := by
  rcases ms with _ | ⟨m, _ | ⟨m', ms⟩⟩
  · exact absurd rfl hne
  · refine ⟨(runes m.1).flatMap escapeRune ++ 34 :: 58 :: (layout.value ++ (m.2.text ++
      (layout.after ++ rest))), ?_⟩
    simp only [Layout.members, Layout.member, quote, List.append_assoc, List.cons_append,
      List.nil_append]
  · refine ⟨(runes m.1).flatMap escapeRune ++ 34 :: 58 :: (layout.value ++ (m.2.text ++ 44 ::
      (layout.members (m' :: ms) ++ rest))), ?_⟩
    simp only [Layout.members, Layout.member, quote, List.append_assoc, List.cons_append,
      List.nil_append]

theorem length_le_members (ms : List Member) : ms.length ≤ (layout.members ms).length := by
  induction ms using Layout.members.induct with
  | case1 => exact Nat.zero_le _
  | case2 m =>
      simp only [Layout.members, Layout.member, quote, List.length_append, List.length_cons]
      omega
  | case3 m m' rest ih =>
      simp only [Layout.members, List.length_append, List.length_cons] at ih ⊢
      omega

theorem readMembers_members (ms : List Member) (hne : ms ≠ []) {fuel : Nat}
    (hfuel : ms.length ≤ fuel) (rest : GoString) :
    readMembers fuel (layout.members ms ++ 125 :: rest) = some (ms.map Member.valid, rest) := by
  induction ms using Layout.members.induct generalizing fuel with
  | case1 => exact absurd rfl hne
  | case2 m =>
      obtain ⟨fuel, rfl⟩ := Nat.exists_eq_add_of_le' hfuel
      have hread := readMember_member layout m
        (not_isDigit_head layout.after_space (c := 125) (by decide) rest)
      have hcomma := expect_cons layout.after_space (c := 125) rfl 44 rest
      have hclose := expect_cons layout.after_space (c := 125) rfl 125 rest
      rw [if_neg (by decide)] at hcomma
      rw [if_pos rfl] at hclose
      rw [Layout.members, List.append_assoc]
      simp only [List.length_singleton, readMembers, hread, hcomma, hclose, bind, Option.bind_some]
      rfl
  | case3 m m' ms ih =>
      obtain ⟨fuel, rfl⟩ := Nat.exists_eq_add_of_le' hfuel
      have hread := readMember_member layout m
        (not_isDigit_head (List.all_nil : List.all [] isSpace = true)
          (by decide : ¬ GoString.IsDigit 44) (layout.members (m' :: ms) ++ 125 :: rest))
      have hlen : (m' :: ms).length ≤ fuel + ms.length + 1 := by
        rw [List.length_cons]
        omega
      have hrest := ih (List.cons_ne_nil m' ms) hlen
      rw [List.nil_append] at hread
      rw [Layout.members, List.append_assoc, List.cons_append, List.length_cons, List.length_cons,
        show fuel + (ms.length + 1 + 1) = fuel + ms.length + 1 + 1 by omega]
      rw [readMembers, hread]
      dsimp only [bind, Option.bind]
      rw [expect_self rfl]
      dsimp only
      rw [hrest]
      rfl

/-- Whatever the layout, the object is read back. -/
theorem readObject_object (ms : List Member) :
    readObject (layout.object ms) = some (ms.map Member.valid) := by
  rw [Layout.object, readObject]
  by_cases hne : ms = []
  · subst hne
    rfl
  · obtain ⟨s, hs⟩ := members_append_ne layout ms hne [125]
    have hclose : expect 125 (layout.members ms ++ [125]) = none := by
      rw [hs, expect_cons layout.before_space rfl, if_neg (by decide)]
    have hfuel : ms.length ≤ (layout.members ms ++ [125]).length := by
      rw [List.length_append]
      exact Nat.le_add_right_of_le (length_le_members layout ms)
    have hread := readMembers_members layout ms hne hfuel []
    simp only [expect_self (rfl : isSpace 123 = false), hclose, hread, bind, Option.bind_some]
    rfl

end Objects

end CommonLib.Reasoning.JSON
