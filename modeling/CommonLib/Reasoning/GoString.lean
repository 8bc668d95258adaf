import Mathlib

/-! Strings as the bytes they are made of. -/

namespace CommonLib.Reasoning

abbrev GoString := List UInt8

namespace GoString

/-- The bytes of an ASCII literal. -/
def ofASCII (s : String) : GoString := s.toList.map fun c ↦ .ofNat c.toNat

/-- The number a non-empty row of decimal digits stands for. -/
def decimal (s : GoString) : Option Nat :=
  if s ≠ [] ∧ s.all (fun c ↦ 48 ≤ c && c ≤ 57) then
    some (s.foldl (fun n c ↦ 10 * n + (c.toNat - 48)) 0)
  else
    none

/-- `strconv.Atoi`, which fails on a number that does not fit into 64 bits. -/
def atoi (s : GoString) : Option Int64 := do
  let negative := s.head? = some 45
  let digits := if negative ∨ s.head? = some 43 then s.tail else s
  let n ← decimal digits
  if negative then
    if n ≤ 2 ^ 63 then some (.ofInt (-n)) else none
  else
    if n < 2 ^ 63 then some (.ofNat n) else none

/-- `strings.Split` at a one-byte separator. -/
def split (s : GoString) (sep : UInt8) : List GoString := List.splitOn sep s

/-- `strings.Join` with a one-byte separator. -/
def join (parts : List GoString) (sep : UInt8) : GoString := [sep].intercalate parts

theorem split_join {parts : List GoString} {sep : UInt8} (hsep : ∀ s ∈ parts, sep ∉ s)
    (hne : parts ≠ []) : split (join parts sep) sep = parts :=
  List.splitOn_intercalate sep hsep hne

theorem join_split (s : GoString) (sep : UInt8) : join (split s sep) sep = s :=
  List.intercalate_splitOn sep

theorem not_mem_of_mem_split {s part : GoString} {sep : UInt8} (h : part ∈ split s sep) :
    sep ∉ part := by
  unfold split at h
  induction s generalizing part with
  | nil =>
      rw [List.splitOn_nil, List.mem_singleton] at h
      rw [h]
      exact List.not_mem_nil
  | cons b s ih =>
      rw [List.splitOn_cons_eq_if_modifyHead] at h
      split at h
      · rcases List.mem_cons.mp h with rfl | h
        · exact List.not_mem_nil
        · exact ih h
      next hb =>
        obtain ⟨first, rest, hsplit⟩ := List.exists_cons_of_ne_nil (List.splitOn_ne_nil sep s)
        rw [hsplit, List.modifyHead_cons] at h
        rw [hsplit] at ih
        rcases List.mem_cons.mp h with rfl | h
        · have hne : sep ≠ b := fun heq ↦ hb (by simp [heq])
          exact List.not_mem_cons_of_ne_of_not_mem hne (ih List.mem_cons_self)
        · exact ih (List.mem_cons_of_mem first h)

theorem length_split (s : GoString) (sep : UInt8) : (split s sep).length = s.count sep + 1 := by
  unfold split
  induction s with
  | nil => rfl
  | cons b s ih =>
      rw [List.splitOn_cons_eq_if_modifyHead]
      split
      next hb => rw [List.length_cons, ih, beq_iff_eq.mp hb, List.count_cons_self]
      next hb => rw [List.length_modifyHead, ih, List.count_cons_of_ne (by simpa using hb)]

/-- Parts without the separator can be read off what they are joined to. -/
theorem join_inj {parts parts' : List GoString} {sep : UInt8} (hsep : ∀ s ∈ parts, sep ∉ s)
    (hsep' : ∀ s ∈ parts', sep ∉ s) (hne : parts ≠ []) (hne' : parts' ≠ [])
    (h : join parts sep = join parts' sep) : parts = parts' := by
  rw [← split_join hsep hne, h, split_join hsep' hne']

theorem join_eq_nil_iff {parts : List GoString} {sep : UInt8} :
    join parts sep = [] ↔ parts = [] ∨ parts = [[]] := by
  rcases parts with _ | ⟨s, _ | ⟨t, rest⟩⟩ <;> simp [join, List.intercalate, List.intersperse]

theorem join_ne_nil {parts : List GoString} {sep : UInt8} (hparts : ∀ s ∈ parts, s ≠ [])
    (hne : parts ≠ []) : join parts sep ≠ [] := by
  intro hjoin
  have hempty := (join_eq_nil_iff.mp hjoin).resolve_left hne
  rw [hempty] at hparts
  exact hparts [] List.mem_cons_self rfl

end GoString

end CommonLib.Reasoning
