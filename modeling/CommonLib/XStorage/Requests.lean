import CommonLib.Reasoning.Crash
import CommonLib.Reasoning.Text

/-!
# Statements from structs

The columns of a struct are the `db` tags of its fields and of the structs in them, to any depth.
-/

namespace CommonLib.XStorage

open CommonLib.Reasoning

/-! ## Structs as reflection sees them -/

mutual

/-- A field with its name, its `db` tag (empty without one) and whether it is exported. -/
inductive Field
  | mk (name db : GoString) (exported : Bool) (value : Value)

/-- Of a value that is no pointer and no struct, only whether it is zero matters. -/
inductive Value
  | ptr (isNil : Bool)
  | struct (fields : List Field)
  | other (zero : Bool)

end

mutual

def Value.isZero : Value → Bool
  | .ptr isNil => isNil
  | .struct fields => allZero fields
  | .other zero => zero

def allZero : List Field → Bool
  | [] => true
  | .mk _ _ _ value :: fields => value.isZero && allZero fields

end

def Value.isNilPtr : Value → Bool
  | .ptr isNil => isNil
  | _ => false

/-! ## Columns -/

def unexportedField : Crash :=
  .panic "reflect.Value.Interface: cannot return value obtained from unexported field or method"

mutual

/-- `getFields` on the fields of a struct. -/
def getFields (omitNull : Bool) : List Field → Except Crash (List GoString)
  | [] => .ok []
  | field :: fields => do
      let columns ← fieldColumns omitNull field
      let others ← getFields omitNull fields
      .ok (columns ++ others)

/-- One turn of the loop of `getFields`. -/
def fieldColumns (omitNull : Bool) : Field → Except Crash (List GoString)
  | .mk name db exported value =>
      if name = .ofASCII "ID" ∧ value.isZero then .ok []
      else if db ≠ [] ∧ omitNull ∧ value.isNilPtr then .ok []
      else
        let column := if db ≠ [] then [db] else []
        match value with
        | .struct fields =>
            -- `Interface` panics on a field that is not exported.
            if exported then do
              let inner ← getFields omitNull fields
              .ok (column ++ inner)
            else .error unexportedField
        | .ptr _ | .other _ => .ok column

end

/-! ## Statements -/

def assignment (n : GoString) : GoString := n ++ (.ofASCII "=:" ++ n)

/-- The loop of `GetSelectRequest`. -/
def selectors (names : List GoString) : GoString :=
  names.zipIdx.foldl (fun selectors e ↦
    if e.2 = 0 then assignment e.1 else selectors ++ (.ofASCII " AND " ++ assignment e.1)) []

def getSelectRequest (table : GoString) (i : List Field) : Except Crash GoString := do
  let names ← getFields true i
  if names.length = 0 then .ok (.ofASCII "SELECT * FROM " ++ table)
  else .ok (.ofASCII "SELECT * FROM " ++ table ++ .ofASCII " WHERE " ++ selectors names)

def getInsertRequest (table : GoString) (i : List Field) : Except Crash GoString := do
  let names ← getFields false i
  if names.length = 0 then .ok (.ofASCII "INSERT INTO " ++ table)
  else
    let fields := (GoString.ofASCII ", ").intercalate names
    let refs := GoString.ofASCII ":" ++ (GoString.ofASCII ", :").intercalate names
    .ok (.ofASCII "INSERT INTO " ++ table ++ .ofASCII " (" ++ fields ++ .ofASCII ") VALUES (" ++
      refs ++ .ofASCII ")")

/-- The loop of `GetUpdateRequest`. -/
def updateValues (idName : GoString) (skipped allNames : List GoString) : GoString :=
  allNames.foldl (fun values n ↦
    if skipped.contains n ∨ n = idName then values
    else if values.length = 0 then assignment n
    else values ++ (.ofASCII ", " ++ assignment n)) []

def updateText (table values idName : GoString) : GoString :=
  .ofASCII "UPDATE " ++ table ++ .ofASCII " SET " ++ values ++ .ofASCII " WHERE " ++
    assignment idName

def getUpdateRequest (table idName : GoString) (i : List Field) (skipped : List GoString) :
    Except Crash (Except String GoString) := do
  let allNames ← getFields false i
  let notNullNames ← getFields true i
  if notNullNames.contains idName then
    .ok (.ok (updateText table (updateValues idName skipped allNames) idName))
  else .ok (.error "id is not specified")

/-! ## The two modes -/

theorem getFields_cons_eq_ok_iff {omitNull : Bool} {field : Field} {fields : List Field}
    {names : List GoString} : getFields omitNull (field :: fields) = .ok names ↔
      ∃ columns others, fieldColumns omitNull field = .ok columns ∧
        getFields omitNull fields = .ok others ∧ columns ++ others = names := by
  rw [getFields]
  cases fieldColumns omitNull field with
  | error crash => simp [bind, Except.bind]
  | ok columns => cases getFields omitNull fields <;> simp [bind, Except.bind]

theorem fieldColumns_struct {omitNull exported : Bool} {name db : GoString} {fields : List Field}
    (hset : ¬ (name = .ofASCII "ID" ∧ (Value.struct fields).isZero)) :
    fieldColumns omitNull (.mk name db exported (.struct fields)) =
      if exported then (getFields omitNull fields).map ((if db ≠ [] then [db] else []) ++ ·)
      else .error unexportedField := by
  rw [fieldColumns, if_neg hset, if_neg (by simp [Value.isNilPtr])]
  rfl

mutual

/-- Leaving out null columns changes nothing else. -/
theorem getFields_omitNull {allNames : List GoString} :
    ∀ fields : List Field, getFields false fields = .ok allNames →
      ∃ notNullNames, getFields true fields = .ok notNullNames ∧ notNullNames.Sublist allNames
  | [], h => ⟨allNames, h, List.Sublist.refl allNames⟩
  | field :: fields, h => by
      obtain ⟨columns, others, hcolumns, hothers, rfl⟩ := getFields_cons_eq_ok_iff.mp h
      obtain ⟨columns', hcolumns', hsub⟩ := fieldColumns_omitNull field hcolumns
      obtain ⟨others', hothers', hsub'⟩ := getFields_omitNull fields hothers
      exact ⟨columns' ++ others',
        getFields_cons_eq_ok_iff.mpr ⟨columns', others', hcolumns', hothers', rfl⟩,
        hsub.append hsub'⟩

theorem fieldColumns_omitNull {columns : List GoString} :
    ∀ field : Field, fieldColumns false field = .ok columns →
      ∃ columns', fieldColumns true field = .ok columns' ∧ columns'.Sublist columns
  | .mk name db exported (.struct fields), h => by
      by_cases hzero : name = .ofASCII "ID" ∧ (Value.struct fields).isZero
      · rw [fieldColumns, if_pos hzero] at h ⊢
        exact ⟨columns, h, List.Sublist.refl columns⟩
      · rw [fieldColumns_struct hzero] at h ⊢
        cases exported with
        | false => cases h
        | true =>
            rw [if_pos rfl] at h ⊢
            cases hinner : getFields false fields with
            | error crash =>
                rw [hinner] at h
                cases h
            | ok inner =>
                rw [hinner] at h
                cases h
                obtain ⟨inner', hinner', hsub⟩ := getFields_omitNull fields hinner
                exact ⟨_, congrArg (Except.map _) hinner', hsub.append_left _⟩
  | .mk name db exported (.ptr isNil), h => by
      -- The only field of which the two modes differ.
      by_cases hzero : name = .ofASCII "ID" ∧ (Value.ptr isNil).isZero
      · rw [fieldColumns, if_pos hzero] at h ⊢
        exact ⟨columns, h, List.Sublist.refl columns⟩
      · rw [fieldColumns, if_neg hzero] at h ⊢
        split
        next => exact ⟨[], rfl, List.nil_sublist columns⟩
        next =>
          rw [if_neg (by simp)] at h
          exact ⟨columns, h, List.Sublist.refl columns⟩
  | .mk name db exported (.other zero), h => by
      refine ⟨columns, ?_, List.Sublist.refl columns⟩
      rw [← h, fieldColumns, fieldColumns]
      simp [Value.isNilPtr]

end

/-! ## What is assigned -/

theorem assignment_ne_nil (n : GoString) : assignment n ≠ [] := by
  simp [assignment, GoString.ofASCII]

theorem intercalate_assignments_eq_nil_iff {sep : GoString} {names : List GoString} :
    sep.intercalate (names.map assignment) = [] ↔ names = [] := by
  rw [GoString.intercalate_eq_nil_iff, List.map_eq_nil_iff]
  intro p hp
  obtain ⟨n, -, rfl⟩ := List.mem_map.mp hp
  exact assignment_ne_nil n

/-- The columns to assign, in the order of the fields. -/
def toAssign (idName : GoString) (skipped allNames : List GoString) : List GoString :=
  allNames.filter fun n ↦ n ≠ idName ∧ ¬ skipped.contains n

section ToAssign

variable (idName : GoString) (skipped : List GoString)

theorem toAssign_ne_nil_iff (allNames : List GoString) :
    toAssign idName skipped allNames ≠ [] ↔ ∃ n ∈ allNames, n ≠ idName ∧ n ∉ skipped := by
  simp [toAssign]

theorem toAssign_concat (names : List GoString) (n : GoString) :
    toAssign idName skipped (names ++ [n]) = if skipped.contains n ∨ n = idName then
      toAssign idName skipped names else toAssign idName skipped names ++ [n] := by
  rw [toAssign, List.filter_append, ← toAssign]
  split
  next hskip =>
    rw [List.filter_eq_nil_iff.mpr, List.append_nil]
    intro m hm
    rw [List.mem_singleton.mp hm, decide_eq_true_eq]
    exact fun hn ↦ hskip.elim hn.2 hn.1
  next hkeep =>
    rw [List.filter_eq_self.mpr]
    intro m hm
    rw [List.mem_singleton.mp hm, decide_eq_true_eq]
    exact ⟨fun heq ↦ hkeep (.inr heq), fun hmem ↦ hkeep (.inl hmem)⟩

theorem updateValues_eq (allNames : List GoString) :
    updateValues idName skipped allNames = (GoString.ofASCII ", ").intercalate
      ((toAssign idName skipped allNames).map assignment) := by
  -- From the right, as the loop appends there.
  induction allNames using List.reverseRecOn with
  | nil => rfl
  | append_singleton names n ih =>
      rw [updateValues, List.foldl_append, List.foldl_cons, List.foldl_nil, ← updateValues, ih,
        toAssign_concat]
      split
      next => rfl
      next =>
        rw [List.map_append, List.map_singleton]
        split
        next hlen =>
          rw [List.length_eq_zero_iff, intercalate_assignments_eq_nil_iff] at hlen
          rw [hlen, List.map_nil, List.nil_append, List.intercalate_singleton]
        next hlen =>
          rw [List.length_eq_zero_iff, intercalate_assignments_eq_nil_iff] at hlen
          rw [GoString.intercalate_concat (by simpa using hlen)]

end ToAssign

theorem selectors_eq (names : List GoString) :
    selectors names = (GoString.ofASCII " AND ").intercalate (names.map assignment) := by
  induction names using List.reverseRecOn with
  | nil => rfl
  | append_singleton names n ih =>
      rw [selectors, List.zipIdx_append, List.foldl_append, ← selectors, ih, List.map_append]
      by_cases hnil : names = []
      · simp [hnil]
      · rw [List.map_singleton, GoString.intercalate_concat (by simpa using hnil)]
        simp [hnil]

/-! ## What the statements say -/

theorem getSelectRequest_eq {table : GoString} {i : List Field} {names : List GoString}
    (h : getFields true i = .ok names) (hne : names ≠ []) :
    getSelectRequest table i = .ok (.ofASCII "SELECT * FROM " ++ table ++ .ofASCII " WHERE " ++
      (GoString.ofASCII " AND ").intercalate (names.map assignment)) := by
  rw [getSelectRequest, h, ← selectors_eq]
  exact if_neg (by simpa using hne)

/-- Each column stands with its placeholder, in the same place. -/
theorem getInsertRequest_eq {table : GoString} {i : List Field} {names : List GoString}
    (h : getFields false i = .ok names) (hne : names ≠ []) :
    getInsertRequest table i = .ok (.ofASCII "INSERT INTO " ++ table ++ .ofASCII " (" ++
      (GoString.ofASCII ", ").intercalate names ++ .ofASCII ") VALUES (" ++
      (GoString.ofASCII ", ").intercalate (names.map (GoString.ofASCII ":" ++ ·)) ++
      .ofASCII ")") := by
  rw [getInsertRequest, h, GoString.intercalate_map_append _ hne]
  exact if_neg (by simpa using hne)

section Update

variable (table : GoString) {idName : GoString} {i : List Field} (skipped : List GoString)
  {allNames notNullNames : List GoString}

theorem getUpdateRequest_of_mem (hall : getFields false i = .ok allNames)
    (hnotNull : getFields true i = .ok notNullNames) (hid : idName ∈ notNullNames) :
    getUpdateRequest table idName i skipped = .ok (.ok (updateText table
      ((GoString.ofASCII ", ").intercalate
        ((toAssign idName skipped allNames).map assignment)) idName)) := by
  rw [getUpdateRequest, hall, hnotNull, ← updateValues_eq]
  exact if_pos (List.contains_iff_mem.mpr hid)

theorem getUpdateRequest_of_not_mem (hall : getFields false i = .ok allNames)
    (hnotNull : getFields true i = .ok notNullNames) (hid : idName ∉ notNullNames) :
    getUpdateRequest table idName i skipped = .ok (.error "id is not specified") := by
  rw [getUpdateRequest, hall, hnotNull]
  exact if_neg fun h ↦ hid (List.contains_iff_mem.mp h)

end Update

/-- An update names exactly the columns it is to assign, and fails without an id, exactly if a
column is left to assign wherever the id is set. -/
theorem getUpdateRequest_right_iff (table idName : GoString) (i : List Field)
    (skipped : List GoString) :
    ((∀ stmt, getUpdateRequest table idName i skipped = .ok (.ok stmt) →
        ∃ allNames, getFields false i = .ok allNames ∧ toAssign idName skipped allNames ≠ [] ∧
          stmt = updateText table ((GoString.ofASCII ", ").intercalate
            ((toAssign idName skipped allNames).map assignment)) idName) ∧
      ∀ allNames notNullNames, getFields false i = .ok allNames →
        getFields true i = .ok notNullNames →
        idName ∉ notNullNames ∨ toAssign idName skipped allNames = [] →
        ∃ err, getUpdateRequest table idName i skipped = .ok (.error err)) ↔
    ∀ allNames notNullNames, getFields false i = .ok allNames →
      getFields true i = .ok notNullNames → idName ∈ notNullNames →
      ∃ n ∈ allNames, n ≠ idName ∧ n ∉ skipped := by
  constructor
  · rintro ⟨hok, -⟩ allNames notNullNames hall hnotNull hid
    obtain ⟨allNames', hall', hne, -⟩ :=
      hok _ (getUpdateRequest_of_mem table skipped hall hnotNull hid)
    rw [hall] at hall'
    cases hall'
    exact (toAssign_ne_nil_iff idName skipped allNames).mp hne
  · intro hleft
    cases hall : getFields false i with
    | error crash =>
        refine ⟨fun stmt h ↦ ?_, fun _ _ h ↦ ?_⟩
        · rw [getUpdateRequest, hall] at h
          cases h
        · cases h
    | ok allNames =>
        obtain ⟨notNullNames, hnotNull, -⟩ := getFields_omitNull i hall
        by_cases hid : idName ∈ notNullNames
        · have hne := (toAssign_ne_nil_iff idName skipped allNames).mpr
            (hleft allNames notNullNames hall hnotNull hid)
          have heq := getUpdateRequest_of_mem table skipped hall hnotNull hid
          refine ⟨fun stmt h ↦ ?_, fun _ _ hall' hnotNull' hbad ↦ ?_⟩
          · cases heq.symm.trans h
            exact ⟨allNames, rfl, hne, rfl⟩
          · cases hall'
            cases hnotNull.symm.trans hnotNull'
            exact absurd hbad (not_or.mpr ⟨not_not.mpr hid, hne⟩)
        · have heq := getUpdateRequest_of_not_mem table skipped hall hnotNull hid
          refine ⟨fun stmt h ↦ ?_, fun _ _ _ _ _ ↦ ⟨_, heq⟩⟩
          cases heq.symm.trans h

/-- The only column is the id, and a statement without an assignment is returned. -/
theorem update_without_assignments :
    let i := [Field.mk (.ofASCII "ID") (.ofASCII "id") true (.other false)]
    getFields false i = .ok [.ofASCII "id"] ∧
      toAssign (.ofASCII "id") [] [.ofASCII "id"] = [] ∧
      getUpdateRequest (.ofASCII "peers") (.ofASCII "id") i [] =
        .ok (.ok (.ofASCII "UPDATE peers SET  WHERE id=:id")) := by
  refine ⟨?_, ?_, ?_⟩ <;> rfl

end CommonLib.XStorage
