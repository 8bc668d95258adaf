import CommonLib.Reasoning.Base64Parts

/-!
# PEM

`encoding/pem` for blocks without headers, and what can be read from a text that only begins like a
block.
-/

namespace CommonLib.Reasoning.PEM

open Base64 (Groups)

/-- `bytes.Cut`, for a separator that is not empty. -/
def cut (sep : GoString) : GoString → Option (GoString × GoString)
  | [] => none
  | c :: s =>
      if sep.isPrefixOf (c :: s) then some ([], (c :: s).drop sep.length)
      else (cut sep s).map fun p ↦ (c :: p.1, p.2)

theorem cut_inv {sep s before after : GoString} (h : cut sep s = some (before, after)) :
    s = before ++ sep ++ after := by
  induction s generalizing before with
  | nil => cases h
  | cons c s ih =>
      rw [cut] at h
      split at h
      next hmark =>
        cases h
        rw [List.nil_append]
        exact (List.prefix_iff_eq_append.mp (List.isPrefixOf_iff_prefix.mp hmark)).symm
      · obtain ⟨p, hp, h⟩ := Option.map_eq_some_iff.mp h
        cases h
        rw [List.cons_append, List.cons_append, ← ih hp]

theorem cut_eq_none {sep s : GoString} (h : ¬ sep <:+: s) : cut sep s = none := by
  by_contra hne
  obtain ⟨p, hp⟩ := Option.ne_none_iff_exists'.mp hne
  exact h ⟨p.1, p.2, (cut_inv hp).symm⟩

/-- The second letter of the separator is not in the text before it. -/
theorem cut_append {d e : UInt8} {body : GoString} (sep after : GoString) (hde : d ≠ e)
    (he : e ∉ body) :
    cut (d :: e :: sep) (body ++ d :: e :: sep ++ after) = some (body, after) := by
  induction body with
  | nil =>
      rw [List.nil_append, List.cons_append, List.cons_append, cut, if_pos]
      · simp
      · simp
  | cons c body ih =>
      have hnot : (d :: e :: sep).isPrefixOf (c :: (body ++ d :: e :: sep ++ after)) = false := by
        cases body with
        | nil => simp [List.isPrefixOf, Ne.symm hde]
        | cons b body =>
            have hb : e ≠ b := fun heq ↦ he (by rw [heq]; simp)
            simp [List.isPrefixOf, hb]
      rw [List.cons_append, List.cons_append, cut, if_neg (by rw [hnot]; decide),
        ih fun hmem ↦ he (List.mem_cons_of_mem c hmem)]
      rfl

/-- The text up to the end of the line, without the white space there, and the next lines. -/
def getLine (data : GoString) : GoString × GoString :=
  let line := data.takeWhile (· ≠ 10)
  match data.dropWhile (· ≠ 10) with
  | [] => (line.rdropWhile fun c ↦ c == 32 || c == 9, [])
  | _ :: rest =>
      -- a carriage return is cut off before a line break only
      let line := if line.getLast? = some 13 then line.dropLast else line
      (line.rdropWhile fun c ↦ c == 32 || c == 9, rest)

/-- A line that ends with something that can be seen. -/
theorem getLine_append {line : GoString} {last : UInt8} (rest : GoString) (hline : 10 ∉ line)
    (hlast : last ≠ 9 ∧ last ≠ 10 ∧ last ≠ 13 ∧ last ≠ 32) :
    getLine (line ++ [last] ++ 10 :: rest) = (line ++ [last], rest) := by
  obtain ⟨htab, hnewline, hreturn, hspace⟩ := hlast
  have hall : ∀ c ∈ line ++ [last], decide (c ≠ 10) = true := by
    intro c hc
    rw [decide_eq_true_eq]
    rcases List.mem_append.mp hc with hc | hc
    · exact fun heq ↦ hline (heq ▸ hc)
    · rwa [List.mem_singleton.mp hc]
  rw [getLine, List.takeWhile_append_of_pos hall, List.dropWhile_append_of_pos hall]
  simp [hreturn, List.rdropWhile_concat_neg, htab, hspace]

theorem mem_getLine {s : GoString} {c : UInt8} (h : c ∈ (getLine s).1) :
    c ∈ s.takeWhile (· ≠ 10) := by
  have htrim {l : GoString} (h : c ∈ l.rdropWhile fun c ↦ c == 32 || c == 9) : c ∈ l :=
    (List.rdropWhile_prefix _ _).subset h
  rw [getLine] at h
  split at h
  · exact htrim h
  · have hmem := htrim h
    split at hmem
    · exact List.mem_of_mem_dropLast hmem
    · exact hmem

/-! ## Blocks -/

def dashes : GoString := .ofASCII "-----"

def beginMark : GoString := .ofASCII "-----BEGIN "

def endMark : GoString := .ofASCII "-----END "

def beginLine (type : GoString) : GoString := beginMark ++ (type ++ dashes) ++ [10]

def endLine (type : GoString) : GoString := endMark ++ (type ++ dashes) ++ [10]

/-- Lines of 64 letters, the last one perhaps shorter, where the first one has some already. -/
def wrapFrom : Nat → GoString → GoString
  | col, [] => if col = 0 then [] else [10]
  | col, c :: s => if col = 63 then c :: 10 :: wrapFrom 0 s else c :: wrapFrom (col + 1) s

/-- `pem.EncodeToMemory`. -/
def encode (type : GoString) (bytes : List UInt8) : GoString :=
  beginLine type ++ (wrapFrom 0 (Base64.encode bytes) ++ endLine type)

/-- What follows the next BEGIN: at the start of the text or of a line. -/
def start (s : GoString) : Option GoString :=
  if beginMark.isPrefixOf s then some (s.drop beginMark.length)
  else (cut (10 :: beginMark) s).map Prod.snd

/-- The lines with a colon are headers: whether there are any, and the text behind them.  There is
none if the text ends before. -/
def skipHeaders : Nat → Bool → GoString → Option (Bool × GoString)
  | 0, _, _ => none
  | fuel + 1, headed, s =>
      if s = [] then none
      else if 58 ∈ (getLine s).1 then skipHeaders fuel true (getLine s).2
      else some (headed, s)

/-- The text before the next END and the text behind it.  Without headers it may come at once. -/
def cutEnd (headed : Bool) (s : GoString) : Option (GoString × GoString) :=
  if headed = false ∧ endMark.isPrefixOf s then some ([], s.drop endMark.length)
  else cut (10 :: endMark) s

/-- The body of a block up to its END line, which repeats the type, and the next lines. -/
def body (type : GoString) (headed : Bool) (s : GoString) : Option (List UInt8 × GoString) := do
  let (text, trailer) ← cutEnd headed s
  -- behind the type and the dashes the line has only white space
  if (type ++ dashes).isPrefixOf trailer ∧
      (getLine (trailer.drop (type ++ dashes).length)).1 = [] then
    let bytes ← Base64.decode (text.filter fun c ↦ !(c == 32 || c == 9))
    return (bytes, (getLine trailer).2)
  else none

/-- The blocks in turn, until one is complete; every turn uses up a BEGIN. -/
def decodeFrom : Nat → GoString → Option (GoString × List UInt8 × GoString)
  | 0, _ => none
  | fuel + 1, s => do
      let s ← start s
      let (typeLine, s) := getLine s
      -- what is no BEGIN line after all is passed over, as a block that is broken
      if dashes.isSuffixOf typeLine then
        let type := typeLine.take (typeLine.length - dashes.length)
        let (headed, s) ← skipHeaders (s.length + 1) false s
        match body type headed s with
        | some (bytes, rest) => some (type, bytes, rest)
        | none => decodeFrom fuel s
      else decodeFrom fuel s

/-- `pem.Decode`: the type and the bytes of the first complete block, and what follows it. -/
def decode (s : GoString) : Option (GoString × List UInt8 × GoString) :=
  decodeFrom (s.length + 1) s

/-! ## Lines of letters -/

/-- The white space that the decoders skip. -/
def isBlank (c : UInt8) : Bool := (c == 32 || c == 9) || Base64.isNewline c

def letters (s : GoString) : GoString := s.filter fun c ↦ !isBlank c

theorem letters_append (s t : GoString) : letters (s ++ t) = letters s ++ letters t :=
  List.filter_append ..

theorem decode_text (text : GoString) :
    Base64.decode (text.filter fun c ↦ !(c == 32 || c == 9)) =
      Base64.decodeGroups (letters text) := by
  rw [Base64.decode, List.filter_filter, letters]
  congr 2
  funext c
  rw [isBlank, Bool.not_or (c == 32 || c == 9), Bool.and_comm]

/-- The letters of the encoding are neither white space nor a dash nor a colon. -/
theorem not_special_of_mem_encode {bytes : List UInt8} {c : UInt8} (h : c ∈ Base64.encode bytes) :
    isBlank c = false ∧ c ≠ 45 ∧ c ≠ 58 := by
  rcases (Base64.groups_encode bytes).value_or_pad c h with hvalue | rfl
  · refine ⟨Bool.eq_false_iff.mpr fun hblank ↦ hvalue ?_, ?_, ?_⟩
    · simp only [isBlank, Base64.isNewline, Bool.or_eq_true, beq_iff_eq] at hblank
      rcases hblank with (rfl | rfl) | rfl | rfl <;> rfl
    · rintro rfl
      exact hvalue rfl
    · rintro rfl
      exact hvalue rfl
  · decide

section Wrap

variable {col n : Nat} {s t : GoString}

theorem mem_wrapFrom {c : UInt8} (h : c ∈ wrapFrom col s) : c ∈ s ∨ c = 10 := by
  induction s generalizing col with
  | nil =>
      rw [wrapFrom] at h
      split at h
      · cases h
      · exact .inr (List.mem_singleton.mp h)
  | cons b s ih =>
      rw [wrapFrom] at h
      split at h
      · rcases List.mem_cons.mp h with rfl | h
        · exact .inl List.mem_cons_self
        · rcases List.mem_cons.mp h with rfl | h
          · exact .inr rfl
          · exact (ih h).imp_left (List.mem_cons_of_mem b)
      · rcases List.mem_cons.mp h with rfl | h
        · exact .inl List.mem_cons_self
        · exact (ih h).imp_left (List.mem_cons_of_mem b)

theorem length_wrapFrom (s : GoString) (hcol : col < 64) :
    (wrapFrom col s).length = s.length + (col + s.length + 63) / 64 := by
  induction s generalizing col with
  | nil =>
      rw [wrapFrom]
      split
      next hzero =>
        rw [hzero]
        rfl
      · simp only [List.length_singleton, List.length_nil]
        omega
  | cons c s ih =>
      rw [wrapFrom]
      split
      · simp only [List.length_cons, ih (by decide : 0 < 64)]
        omega
      · simp only [List.length_cons, ih (by omega : col + 1 < 64)]
        omega

theorem eq_zero_of_lt_wrapFrom_nil (h : n < (wrapFrom col []).length) : n = 0 := by
  rw [wrapFrom] at h
  split at h
  · cases h
  · exact Nat.lt_one_iff.mp h

/-- Before the end, a place in the lines is a place in the text: one of 65 is a line break. -/
theorem letters_take_wrapFrom (hs : ∀ c ∈ s, isBlank c = false) (hcol : col < 64)
    (hn : n < (wrapFrom col s).length) :
    letters ((wrapFrom col s).take n) = s.take (n - (n + col) / 65) := by
  induction s generalizing col n with
  | nil => rw [eq_zero_of_lt_wrapFrom_nil hn, List.take_zero, List.take_nil, letters, List.filter_nil]
  | cons c s ih =>
      have hc := hs c List.mem_cons_self
      have hs' : ∀ c ∈ s, isBlank c = false := fun b hb ↦ hs b (List.mem_cons_of_mem c hb)
      rw [wrapFrom] at hn ⊢
      split
      next hlast =>
        rw [if_pos hlast] at hn
        rcases n with _ | _ | n
        · simp [letters]
        · have hone : 1 - (1 + col) / 65 = 1 := by omega
          simp [letters, hc, hone]
        · simp only [List.length_cons, Nat.add_lt_add_iff_right] at hn
          have hplace : n + 2 - (n + 2 + col) / 65 = n - (n + 0) / 65 + 1 := by omega
          rw [hplace, List.take_succ_cons, List.take_succ_cons, List.take_succ_cons,
            ← ih hs' (by decide) hn]
          simp [letters, hc, show isBlank 10 = true from rfl]
      next hne =>
        rw [if_neg hne] at hn
        rcases n with _ | n
        · simp [letters]
        · simp only [List.length_cons, Nat.add_lt_add_iff_right] at hn
          have hplace : n + 1 - (n + 1 + col) / 65 = n - (n + (col + 1)) / 65 + 1 := by omega
          rw [hplace, List.take_succ_cons, List.take_succ_cons, ← ih hs' (by omega) hn]
          simp [letters, hc]

theorem letters_wrapFrom (hs : ∀ c ∈ s, isBlank c = false) (col : Nat) :
    letters (wrapFrom col s) = s := by
  induction s generalizing col with
  | nil =>
      rw [wrapFrom]
      split <;> rfl
  | cons c s ih =>
      have hc := hs c List.mem_cons_self
      have ih' := ih fun b hb ↦ hs b (List.mem_cons_of_mem c hb)
      simp only [letters] at ih' ⊢
      rw [wrapFrom]
      split
      · simp [hc, show isBlank 10 = true from rfl, ih']
      · simp [hc, ih']

theorem letters_drop_wrapFrom (hs : ∀ c ∈ s, isBlank c = false) (hcol : col < 64)
    (hn : n < (wrapFrom col s).length) :
    letters ((wrapFrom col s).drop n) = s.drop (n - (n + col) / 65) := by
  have hall := letters_wrapFrom hs col
  rw [← List.take_append_drop n (wrapFrom col s), letters_append,
    letters_take_wrapFrom hs hcol hn] at hall
  exact List.append_cancel_left (hall.trans (List.take_append_drop _ s).symm)

/-- Texts that begin alike have lines that begin alike. -/
theorem take_wrapFrom_eq (hcol : col < 64) (hn : n < (wrapFrom col s).length)
    (hn' : n < (wrapFrom col t).length)
    (h : s.take (n - (n + col) / 65) = t.take (n - (n + col) / 65)) :
    (wrapFrom col s).take n = (wrapFrom col t).take n := by
  induction s generalizing col n t with
  | nil => rw [eq_zero_of_lt_wrapFrom_nil hn, List.take_zero, List.take_zero]
  | cons c s ih =>
      cases t with
      | nil => rw [eq_zero_of_lt_wrapFrom_nil hn', List.take_zero, List.take_zero]
      | cons d t =>
          rw [wrapFrom] at hn hn' ⊢
          rw [wrapFrom]
          split
          next hlast =>
            rw [if_pos hlast] at hn hn'
            rcases n with _ | _ | n
            · rfl
            · have hone : 0 + 1 - (0 + 1 + col) / 65 = 0 + 1 := by omega
              rw [hone, List.take_succ_cons, List.take_succ_cons, List.cons.injEq] at h
              rw [List.take_succ_cons, List.take_succ_cons, h.1]
              rfl
            · simp only [List.length_cons, Nat.add_lt_add_iff_right] at hn hn'
              have hplace : n + 2 - (n + 2 + col) / 65 = n - (n + 0) / 65 + 1 := by omega
              rw [hplace, List.take_succ_cons, List.take_succ_cons, List.cons.injEq] at h
              simp only [List.take_succ_cons, h.1, ih (by decide) hn hn' h.2]
          next hne =>
            rw [if_neg hne] at hn hn'
            rcases n with _ | n
            · rfl
            · simp only [List.length_cons, Nat.add_lt_add_iff_right] at hn hn'
              have hplace : n + 1 - (n + 1 + col) / 65 = n - (n + (col + 1)) / 65 + 1 := by omega
              rw [hplace, List.take_succ_cons, List.take_succ_cons, List.cons.injEq] at h
              simp only [List.take_succ_cons, h.1, ih (by omega) hn hn' h.2]

/-- A text that is not empty ends with a line break. -/
theorem wrapFrom_eq_append (h : wrapFrom col s ≠ []) : ∃ lines, wrapFrom col s = lines ++ [10] := by
  induction s generalizing col with
  | nil =>
      rw [wrapFrom] at h ⊢
      split at h
      · exact absurd rfl h
      next hne => exact ⟨[], by rw [if_neg hne]; rfl⟩
  | cons c s ih =>
      rw [wrapFrom]
      split
      · by_cases hnil : wrapFrom 0 s = []
        · exact ⟨[c], by rw [hnil]; rfl⟩
        · obtain ⟨lines, hlines⟩ := ih hnil
          exact ⟨c :: 10 :: lines, by rw [hlines]; rfl⟩
      · have hne : wrapFrom (col + 1) s ≠ [] := by
          cases s <;> rw [wrapFrom] <;> split <;> simp at *
        obtain ⟨lines, hlines⟩ := ih hne
        exact ⟨c :: lines, by rw [hlines]; rfl⟩

end Wrap

/-! ## Reading blocks -/

variable {type s rest : GoString} {bytes : List UInt8} {fuel : Nat}

theorem skipHeaders_of_line (hs : s ≠ []) (h : 58 ∉ s.takeWhile (· ≠ 10)) :
    skipHeaders (fuel + 1) false s = some (false, s) := by
  rw [skipHeaders, if_neg hs, if_neg fun hmem ↦ h (mem_getLine hmem)]

theorem start_beginLine (s : GoString) :
    start (beginLine type ++ s) = some (type ++ dashes ++ 10 :: s) := by
  have happend : beginLine type ++ s = beginMark ++ (type ++ dashes ++ 10 :: s) := by
    simp [beginLine]
  have hmark : beginMark.isPrefixOf (beginLine type ++ s) = true := by
    rw [happend]
    exact List.isPrefixOf_iff_prefix.mpr (List.prefix_append _ _)
  rw [start, if_pos hmark, happend, List.drop_left]

theorem getLine_type (htype : 10 ∉ type) (s : GoString) :
    getLine (type ++ dashes ++ 10 :: s) = (type ++ dashes, s) := by
  have hsplit : type ++ dashes = type ++ .ofASCII "----" ++ [45] := by
    rw [List.append_assoc]
    rfl
  rw [hsplit]
  refine getLine_append s (fun hmem ↦ ?_) (by decide)
  rcases List.mem_append.mp hmem with hmem | hmem
  · exact htype hmem
  · exact absurd hmem (by decide)

/-- Behind a BEGIN line comes its block, unless it is broken. -/
theorem decodeFrom_beginLine (htype : 10 ∉ type) (hs : s ≠ [])
    (hline : 58 ∉ s.takeWhile (· ≠ 10)) :
    decodeFrom (fuel + 1) (beginLine type ++ s) =
      match body type false s with
      | some (bytes, rest) => some (type, bytes, rest)
      | none => decodeFrom fuel s := by
  have hsuffix : dashes.isSuffixOf (type ++ dashes) = true :=
    List.isSuffixOf_iff_suffix.mpr (List.suffix_append _ _)
  have htake : (type ++ dashes).take ((type ++ dashes).length - dashes.length) = type := by
    rw [List.length_append, Nat.add_sub_cancel, List.take_left]
  rw [decodeFrom, start_beginLine]
  simp only [bind, Option.bind_some, getLine_type htype, if_pos hsuffix, htake,
    skipHeaders_of_line hs hline]

/-- A text without a block. -/
theorem decodeFrom_eq_none (h : ¬ beginMark <:+: s) : decodeFrom fuel s = none := by
  cases fuel with
  | zero => rfl
  | succ fuel =>
      have hmark : ¬ beginMark.isPrefixOf s = true := fun hmark ↦
        h (List.isPrefixOf_iff_prefix.mp hmark).isInfix
      have hcut : cut (10 :: beginMark) s = none :=
        cut_eq_none fun hinfix ↦ h ((List.suffix_cons 10 beginMark).isInfix.trans hinfix)
      rw [decodeFrom, start, if_neg hmark, hcut]
      rfl

theorem cutEnd_endMark (after : GoString) : cutEnd false (endMark ++ after) = some ([], after) := by
  have hmark : endMark.isPrefixOf (endMark ++ after) = true :=
    List.isPrefixOf_iff_prefix.mpr (List.prefix_append _ _)
  rw [cutEnd, if_pos ⟨rfl, hmark⟩, List.drop_left]

theorem cutEnd_append {lines : GoString} (hlines : 45 ∉ lines) (after : GoString) :
    cutEnd false (lines ++ [10] ++ (endMark ++ after)) = some (lines, after) := by
  have hnot : ¬ endMark.isPrefixOf (lines ++ [10] ++ (endMark ++ after)) = true := by
    cases lines with
    | nil => exact Bool.false_ne_true
    | cons c lines =>
        have hc : 45 ≠ c := fun heq ↦ hlines (by rw [heq]; exact List.mem_cons_self)
        simp [endMark, GoString.ofASCII, List.isPrefixOf, hc]
  have hcut := cut_append endMark.tail after (by decide : (10 : UInt8) ≠ 45) hlines
  rw [cutEnd, if_neg fun h ↦ hnot h.2, ← hcut, List.append_assoc, List.append_assoc]
  rfl

/-- The lines of an encoding, and behind them its END line. -/
theorem body_wrapFrom (htype : 10 ∉ type) (bytes : List UInt8) (rest : GoString) :
    body type false (wrapFrom 0 (Base64.encode bytes) ++ (endLine type ++ rest)) =
      some (bytes, rest) := by
  have hend : endLine type ++ rest = endMark ++ (type ++ dashes ++ 10 :: rest) := by
    simp [endLine]
  have htrailer : (type ++ dashes).isPrefixOf (type ++ dashes ++ 10 :: rest) = true ∧
      (getLine ((type ++ dashes ++ 10 :: rest).drop (type ++ dashes).length)).1 = [] :=
    ⟨List.isPrefixOf_iff_prefix.mpr (List.prefix_append _ _), by rw [List.drop_left]; rfl⟩
  obtain ⟨text, hcut, htext⟩ : ∃ text,
      cutEnd false (wrapFrom 0 (Base64.encode bytes) ++ (endLine type ++ rest)) =
        some (text, type ++ dashes ++ 10 :: rest) ∧ letters text = Base64.encode bytes := by
    have hletters := letters_wrapFrom (fun c hc ↦ (not_special_of_mem_encode hc).1)
      (s := Base64.encode bytes) 0
    rw [hend]
    by_cases hnil : wrapFrom 0 (Base64.encode bytes) = []
    · -- no bytes: the END line comes at once
      rw [hnil] at hletters ⊢
      exact ⟨[], cutEnd_endMark _, hletters⟩
    · obtain ⟨lines, hlines⟩ := wrapFrom_eq_append hnil
      have hdash : 45 ∉ lines := by
        intro hmem
        have hmem : 45 ∈ wrapFrom 0 (Base64.encode bytes) := by
          rw [hlines]
          exact List.mem_append_left _ hmem
        rcases mem_wrapFrom hmem with hmem | heq
        · exact (not_special_of_mem_encode hmem).2.1 rfl
        · exact absurd heq (by decide)
      rw [hlines] at hletters ⊢
      refine ⟨lines, cutEnd_append hdash _, ?_⟩
      rw [← hletters, letters_append]
      exact (List.append_nil _).symm
  rw [body, hcut]
  simp only [bind, Option.bind_some, if_pos htrailer, getLine_type htype, decode_text, htext,
    Base64.decodeGroups_encode]
  rfl

theorem decode_encode (htype : 10 ∉ type ∧ 58 ∉ type) (bytes : List UInt8) (rest : GoString) :
    decode (encode type bytes ++ rest) = some (type, bytes, rest) := by
  have hne : wrapFrom 0 (Base64.encode bytes) ++ (endLine type ++ rest) ≠ [] := by
    simp [endLine]
  have hline : 58 ∉ (wrapFrom 0 (Base64.encode bytes) ++ (endLine type ++ rest)).takeWhile
      (· ≠ 10) := by
    have hcolon : 58 ∉ wrapFrom 0 (Base64.encode bytes) ++ (endMark ++ (type ++ dashes)) := by
      intro hmem
      rcases List.mem_append.mp hmem with hmem | hmem
      · rcases mem_wrapFrom hmem with hmem | heq
        · exact (not_special_of_mem_encode hmem).2.2 rfl
        · exact absurd heq (by decide)
      · rcases List.mem_append.mp hmem with hmem | hmem
        · exact absurd hmem (by decide)
        · rcases List.mem_append.mp hmem with hmem | hmem
          · exact htype.2 hmem
          · exact absurd hmem (by decide)
    intro hmem
    refine hcolon (List.IsPrefix.subset ?_ hmem)
    have hsplit : wrapFrom 0 (Base64.encode bytes) ++ (endLine type ++ rest) =
        wrapFrom 0 (Base64.encode bytes) ++ (endMark ++ (type ++ dashes)) ++ 10 :: rest := by
      simp [endLine]
    rw [hsplit, List.takeWhile_append]
    split
    · simp
    · exact List.takeWhile_prefix _
  rw [decode, encode, List.append_assoc, List.append_assoc,
    decodeFrom_beginLine htype.1 hne hline, body_wrapFrom htype.1]

/-- The text of a block's body ends at the first dash, which begins a line. -/
theorem body_inv (h : body type false s = some (bytes, rest)) :
    Groups (letters (s.takeWhile (· ≠ 45))) bytes ∧
      ∀ c, (s.takeWhile (· ≠ 45)).getLast? = some c → c = 10 := by
  rw [body] at h
  obtain ⟨⟨text, trailer⟩, hsplit, h⟩ := Option.bind_eq_some_iff.mp h
  obtain ⟨-, h⟩ := Option.ite_none_right_eq_some.mp h
  obtain ⟨bytes', hdecode, h⟩ := Option.bind_eq_some_iff.mp h
  cases h
  rw [decode_text] at hdecode
  have hgroups := Base64.groups_of_decodeGroups hdecode
  rw [cutEnd] at hsplit
  split at hsplit
  next hmark =>
    cases hsplit
    obtain ⟨after, rfl⟩ := List.isPrefixOf_iff_prefix.mp hmark.2
    have hnil : (endMark ++ after).takeWhile (· ≠ 45) = [] := rfl
    rw [hnil]
    exact ⟨hgroups, fun c hc ↦ (by cases hc)⟩
  · have hs := cut_inv hsplit
    have hdash : ∀ c ∈ text ++ [10], decide (c ≠ 45) = true := by
      intro c hc
      rw [decide_eq_true_eq]
      rcases List.mem_append.mp hc with hc | hc
      · rintro rfl
        have hmem : 45 ∈ letters text := List.mem_filter.mpr ⟨hc, rfl⟩
        rcases hgroups.value_or_pad 45 hmem with hvalue | hpad
        · exact hvalue rfl
        · exact absurd hpad (by decide)
      · rw [List.mem_singleton.mp hc]
        decide
    have htake : s.takeWhile (· ≠ 45) = text ++ [10] := by
      rw [hs, show text ++ 10 :: endMark ++ trailer = text ++ [10] ++ (endMark ++ trailer) by simp,
        List.takeWhile_append_of_pos hdash]
      exact List.append_nil _
    rw [htake, letters_append, List.getLast?_concat]
    refine ⟨?_, fun c hc ↦ (Option.some.inj hc).symm⟩
    rwa [show letters [10] = [] from rfl, List.append_nil]

/-- What is read behind a BEGIN line where no other block follows. -/
theorem decode_beginLine_inv {type' : GoString} (htype : 10 ∉ type) (hcolon : 58 ∉ s)
    (hbegin : ¬ beginMark <:+: s) (h : decode (beginLine type ++ s) = some (type', bytes, rest)) :
    Groups (letters (s.takeWhile (· ≠ 45))) bytes ∧
      ∀ c, (s.takeWhile (· ≠ 45)).getLast? = some c → c = 10 := by
  by_cases hs : s = []
  · rw [hs, decode, decodeFrom, start_beginLine] at h
    simp only [bind, Option.bind_some, getLine_type htype, skipHeaders, if_true] at h
    split at h
    · cases h
    · rw [decodeFrom_eq_none (by decide)] at h
      cases h
  · have hline : 58 ∉ s.takeWhile (· ≠ 10) := fun hmem ↦
      hcolon ((List.takeWhile_prefix _).subset hmem)
    rw [decode, decodeFrom_beginLine htype hs hline] at h
    cases hbody : body type false s with
    | none =>
        rw [hbody] at h
        cases (decodeFrom_eq_none hbegin).symm.trans h
    | some p =>
        rw [hbody] at h
        cases h
        exact body_inv hbody

/-! ## Marks in joined texts -/

/-- A mark that crosses a boundary has each of its letters on one side of it. -/
theorem infix_append_cases {p q l r : GoString} {b : UInt8} (h : p ++ b :: q <:+: l ++ r) :
    p ++ [b] <:+: l ∨ b :: q <:+: r := by
  obtain ⟨before, after, h⟩ := h
  have hsplit : before ++ p ++ [b] ++ (q ++ after) = l ++ r := by
    rw [← h]
    simp
  rcases List.append_eq_append_iff.mp hsplit with ⟨more, hl, -⟩ | ⟨more, hbefore, hr⟩
  · exact .inl ⟨before, more, by rw [hl]; simp⟩
  · rcases List.eq_nil_or_concat more with rfl | ⟨more', last, rfl⟩
    · exact .inl ⟨before, [], by rw [List.append_nil, ← List.append_assoc, hbefore, List.append_nil]⟩
    · rw [List.concat_eq_append, ← List.append_assoc] at hbefore
      cases (List.append_inj_right' hbefore rfl)
      exact .inr ⟨more', after, by rw [hr]; simp⟩

/-- A mark does not cross a letter that it does not have. -/
theorem infix_of_append_cons {p l r : GoString} {b : UInt8} (hb : b ∉ p) (h : p <:+: l ++ b :: r) :
    p <:+: l ∨ p <:+: r := by
  obtain ⟨before, after, h⟩ := h
  rcases List.append_eq_append_iff.mp h with ⟨more, hl, -⟩ | ⟨more, hbefore, hr⟩
  · exact .inl ⟨before, more, hl.symm⟩
  · cases more with
    | nil => exact .inl ⟨before, [], by rw [List.append_nil, hbefore, List.append_nil]⟩
    | cons c more =>
        rw [List.cons_append, List.cons.injEq] at hr
        cases hr.1
        rcases List.append_eq_append_iff.mp hbefore with ⟨more', hl, hp⟩ | ⟨more', hbefore', hp⟩
        · exact absurd (hp ▸ List.mem_append_right _ List.mem_cons_self) hb
        · cases more' with
          | nil => exact absurd (by rw [← List.nil_append p, ← hp]; exact List.mem_cons_self) hb
          | cons d more' =>
              rw [List.cons_append, List.cons.injEq] at hp
              exact .inr ⟨more', after, by rw [hr.2, hp.2]⟩

end CommonLib.Reasoning.PEM
