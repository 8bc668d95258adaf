import CommonLib.XCrypto.KeyMap
import CommonLib.XCrypto.Overlays

/-!
# Writes that fail

`writeKey` creates or opens the file and then writes over it.  A write that fails leaves the part of
the new key it has written, and behind it what the file had.  So a failed `AddKey` always leaves a
trace, and a failed `ChangeKey` leaves none only where it wrote what was there.
-/

namespace CommonLib.XCrypto

open Reasoning XError

variable {Key : Type} {F : Formats Key} {files files' : Files} {id id' : UUID} {key : Key}
  {content : List UInt8} {n : Nat} {err : OSError}

inductive WriteCall
  | addKey
  | changeKey
deriving DecidableEq

def WriteCall.run (call : WriteCall) (F : Formats Key) (faults : Faults) (files : Files) (id : UUID)
    (key : Key) : Option GoError × Files :=
  match call with
  | .addKey => XCrypto.addKey F faults files id key
  | .changeKey => XCrypto.changeKey F faults files id key

/-- The call comes to its write. -/
def WriteCall.Writes (call : WriteCall) (F : Formats Key) (files : Files) (id : UUID) : Prop :=
  id ≠ .nil ∧ match call with
    | .addKey => files.lookup (keyPath F id) = none
    | .changeKey => files.lookup (keyPath F id) ≠ none

/-- The files after the call whose write has failed after `n` bytes. -/
def WriteCall.left (call : WriteCall) (F : Formats Key) (files : Files) (id : UUID) (key : Key)
    (n : Nat) (err : OSError) : Files :=
  (call.run F ⟨none, some (n, err)⟩ files id key).2

/-- The failed call has changed nothing, and an `AddKey` can be repeated. -/
structure WriteCall.Kept (call : WriteCall) (F : Formats Key) (files : Files) (id : UUID) (key : Key)
    (n : Nat) (err : OSError) : Prop where
  keys : ∀ id', getKey F .none (call.left F files id key n err) id' = getKey F .none files id'
  listed : listKeys F .none (call.left F files id key n err) = listKeys F .none files
  repeated : call = .addKey →
    ∃ files', XCrypto.addKey F .none (call.left F files id key n err) id key = (none, files')

/-- The first bytes of the new key over the old content. -/
def overlay (F : Formats Key) (key : Key) (n : Nat) (content : List UInt8) : List UInt8 :=
  (marshalPublicKey F key).take n ++ content.drop ((marshalPublicKey F key).take n).length

theorem left_addKey (hid : id ≠ .nil) (hfile : files.lookup (keyPath F id) = none) :
    WriteCall.addKey.left F files id key n err =
      files.insert (keyPath F id) ((marshalPublicKey F key).take n) := by
  simp only [WriteCall.left, WriteCall.run, addKey, writeKey, if_neg hid, openFile, hfile, writeFile,
    AList.lookup_insert, Option.getD_some, List.drop_nil, List.append_nil, AList.insert_insert]

theorem left_changeKey (hid : id ≠ .nil) (hfile : files.lookup (keyPath F id) = some content) :
    WriteCall.changeKey.left F files id key n err =
      files.insert (keyPath F id) (overlay F key n content) := by
  simp only [WriteCall.left, WriteCall.run, changeKey, writeKey, if_neg hid, openFile, hfile,
    writeFile, Option.getD_some, overlay]

/-! ## Reading the files back -/

theorem getKey_of_lookup (hid : id ≠ .nil) (hfile : files.lookup (keyPath F id) = some content) :
    getKey F .none files id = unmarshalPublicKey F content := by
  simp only [getKey, readKey, if_neg hid, readFile, Faults.none, hfile]

theorem getKey_of_missing (hid : id ≠ .nil) (hfile : files.lookup (keyPath F id) = none) :
    getKey F .none files id = .error (makeError .notExist "can't read key") := by
  simp only [getKey, readKey, if_neg hid, readFile, Faults.none, hfile]

theorem getKey_insert_of_ne (hne : id' ≠ id) :
    getKey F .none (files.insert (keyPath F id) content) id' = getKey F .none files id' := by
  have hpath : keyPath F id' ≠ keyPath F id := fun h ↦ hne (uuidString_injective F h)
  simp only [getKey, readKey, readFile, AList.lookup_insert_ne hpath]

/-- A file that is there does not count as missing. -/
theorem unmarshalPublicKey_ne_missing (bs : List UInt8) :
    unmarshalPublicKey F bs ≠ .error (makeError .notExist "can't read key") := by
  intro h
  rw [unmarshalPublicKey] at h
  cases hdecode : F.decode bs with
  | none =>
      rw [hdecode] at h
      cases h
  | some p =>
      rw [hdecode] at h
      cases hparse : F.parsePKCS1PublicKey p.1.bytes with
      | ok publicKey =>
          simp only [hparse] at h
          cases h
      | error err =>
          simp only [hparse] at h
          cases h

/-- `ReadDir` gives the names of the same files in the same order. -/
theorem readDir_congr (hnames : files'.keys.Perm files.keys) :
    readDir .none files' = readDir .none files := by
  have htrans (a b c : GoString) (hab : decide (a ≤ b) = true) (hbc : decide (b ≤ c) = true) :
      decide (a ≤ c) = true :=
    decide_eq_true (List.le_trans (of_decide_eq_true hab) (of_decide_eq_true hbc))
  have htotal (a b : GoString) : (decide (a ≤ b) || decide (b ≤ a)) = true := by
    rw [Bool.or_eq_true, decide_eq_true_eq, decide_eq_true_eq]
    exact List.le_total a b
  have hperm {names : List GoString} :
      (names.mergeSort fun a b ↦ decide (a ≤ b)).Perm names := List.mergeSort_perm ..
  exact congrArg Except.ok (((hperm.trans hnames).trans hperm.symm).eq_of_pairwise
    (fun a b _ _ hab hba ↦ List.le_antisymm (of_decide_eq_true hab) (of_decide_eq_true hba))
    (List.pairwise_mergeSort htrans htotal _) (List.pairwise_mergeSort htrans htotal _))

theorem listKeys_congr (hnames : files'.keys.Perm files.keys)
    (hkeys : ∀ id, getKey F .none files' id = getKey F .none files id) :
    listKeys F .none files' = listKeys F .none files := by
  have hlisted : listedKey F .none files' = listedKey F .none files := by
    funext name
    simp only [listedKey]
    cases F.uuidParse name with
    | error err => rfl
    | ok id => simp only [show readKey F .none files' id = readKey F .none files id from hkeys id]
  rw [listKeys, listKeys, readDir_congr hnames, hlisted]

/-- Writing over a file that is there leaves the names of the directory. -/
theorem keys_insert_perm (hfile : files.lookup (keyPath F id) = some content) (bs : List UInt8) :
    (files.insert (keyPath F id) bs).keys.Perm files.keys := by
  have hmem : keyPath F id ∈ files := AList.lookup_isSome.mp (by rw [hfile]; rfl)
  rw [List.perm_ext_iff_of_nodup (AList.keys_nodup _) files.keys_nodup]
  intro name
  rw [← AList.mem_keys, ← AList.mem_keys, AList.mem_insert]
  exact or_iff_right_of_imp fun heq ↦ heq ▸ hmem

/-! ## What a failed write leaves -/

variable {call : WriteCall}

/-- The file an `AddKey` has created stays: the id is no longer missing. -/
theorem not_kept_addKey (hid : id ≠ .nil) (hfile : files.lookup (keyPath F id) = none) :
    ¬ WriteCall.addKey.Kept F files id key n err := by
  intro h
  have hkey := h.keys id
  rw [left_addKey hid hfile, getKey_of_lookup hid (AList.lookup_insert files),
    getKey_of_missing hid hfile] at hkey
  exact unmarshalPublicKey_ne_missing _ hkey

theorem kept_changeKey_iff (hid : id ≠ .nil) (hfile : files.lookup (keyPath F id) = some content) :
    WriteCall.changeKey.Kept F files id key n err ↔
      unmarshalPublicKey F (overlay F key n content) = unmarshalPublicKey F content := by
  constructor
  · intro h
    have hkey := h.keys id
    rwa [left_changeKey hid hfile, getKey_of_lookup hid (AList.lookup_insert files),
      getKey_of_lookup hid hfile] at hkey
  · intro hsame
    have hkeys : ∀ id', getKey F .none (WriteCall.changeKey.left F files id key n err) id' =
        getKey F .none files id' := by
      intro id'
      rw [left_changeKey hid hfile]
      by_cases heq : id' = id
      · rw [heq, getKey_of_lookup hid (AList.lookup_insert files), hsame,
          getKey_of_lookup hid hfile]
      · exact getKey_insert_of_ne heq
    refine ⟨hkeys, listKeys_congr ?_ hkeys, fun h ↦ nomatch h⟩
    rw [left_changeKey hid hfile]
    exact keys_insert_perm hfile _

theorem overlay_of_begins (h : (marshalPublicKey F key).take n <+: content) :
    overlay F key n content = content :=
  List.prefix_iff_eq_append.mp h

theorem unmarshalPublicKey_inv {bs : List UInt8} (h : unmarshalPublicKey F bs = .ok key) :
    ∃ block rest, F.decode bs = some (block, rest) ∧ F.parsePKCS1PublicKey block.bytes = .ok key := by
  rw [unmarshalPublicKey] at h
  cases hdecode : F.decode bs with
  | none =>
      rw [hdecode] at h
      cases h
  | some p =>
      rw [hdecode] at h
      cases hparse : F.parsePKCS1PublicKey p.1.bytes with
      | error err =>
          simp only [hparse] at h
          cases h
      | ok publicKey =>
          simp only [hparse] at h
          cases h
          exact ⟨p.1, p.2, rfl, hparse⟩

/-! ## Files that hold a key -/

/-- A file as the calls of the keeper leave it. -/
def HoldsKey (content : List UInt8) : Prop :=
  ∃ old rest, content = marshalPublicKey stdFormats old ++ rest ∧ Leftover rest

def KeyFiles (files : Files) : Prop :=
  ∀ name content, files.lookup name = some content → HoldsKey content

/-- What is left of a file that is longer than the new key. -/
theorem HoldsKey.drop (h : HoldsKey content) (new : PublicKey) :
    Leftover (content.drop (marshalPublicKey stdFormats new).length) := by
  obtain ⟨old, rest, rfl, hrest⟩ := h
  rw [marshalPublicKey_eq new, List.length_append, ← List.drop_drop, marshalPublicKey_eq,
    List.append_assoc, List.drop_left, List.append_assoc]
  exact hrest.drop old _

theorem KeyFiles.insert (h : KeyFiles files) (hcontent : HoldsKey content) (name : GoString) :
    KeyFiles (files.insert name content) := by
  intro name' content' hlookup
  by_cases heq : name' = name
  · rw [heq, AList.lookup_insert] at hlookup
    cases hlookup
    exact hcontent
  · rw [AList.lookup_insert_ne heq] at hlookup
    exact h name' content' hlookup

theorem KeyFiles.erase (h : KeyFiles files) (name : GoString) : KeyFiles (files.erase name) := by
  intro name' content' hlookup
  by_cases heq : name' = name
  · rw [heq, AList.lookup_erase] at hlookup
    cases hlookup
  · rw [AList.lookup_erase_ne heq] at hlookup
    exact h name' content' hlookup

theorem KeyFiles.step (h : KeyFiles files) (call : Call PublicKey) :
    KeyFiles (exec stdFormats call files).2 := by
  cases call with
  | addKey id key =>
      rw [exec]
      by_cases hid : id = .nil
      · rwa [addKey, writeKey_nil hid]
      · cases hfile : files.lookup (stdFormats.uuidString id) with
        | none =>
            rw [addKey_of_none hid hfile]
            exact h.insert ⟨key, [], rfl, leftover_nil⟩ _
        | some content =>
            obtain ⟨err, herr⟩ : ∃ err, addKey stdFormats .none files id key = (some err, files) :=
              addKey_of_some hid hfile
            rwa [herr]
  | changeKey id key =>
      rw [exec]
      by_cases hid : id = .nil
      · rwa [changeKey, writeKey_nil hid]
      · cases hfile : files.lookup (stdFormats.uuidString id) with
        | none =>
            obtain ⟨err, herr⟩ := changeKey_of_none key hfile
            rwa [herr]
        | some content =>
            rw [changeKey_of_some hid key hfile]
            exact h.insert ⟨key, _, rfl, (h _ content hfile).drop key⟩ _
  | deleteKey id =>
      rw [exec]
      by_cases hid : id = .nil
      · rwa [deleteKey, if_pos hid]
      · cases hfile : files.lookup (stdFormats.uuidString id) with
        | none =>
            obtain ⟨err, herr⟩ := deleteKey_of_none hfile
            rwa [herr]
        | some content =>
            rw [deleteKey_of_some hid hfile]
            exact h.erase _
  | getKey id => exact h
  | listKeys => exact h

/-- Every file holds a key as long as the file operations succeed. -/
theorem keyFiles_run (calls : List (Call PublicKey)) :
    KeyFiles (runTotal (exec stdFormats) calls ∅).2 := by
  suffices hrun : ∀ files, KeyFiles files → KeyFiles (runTotal (exec stdFormats) calls files).2 from
    hrun ∅ fun name content h ↦ (by cases h)
  induction calls with
  | nil => exact fun files h ↦ h
  | cons call calls ih => exact fun files h ↦ ih _ (h.step call)

/-! ## The first bytes of another key -/

/-- The files that hold a key with the first bytes of another key over it. -/
theorem overlay_eq_mixed (old new : PublicKey) (rest : List UInt8)
    (hn : (PEM.beginLine keyType).length ≤ n) :
    ∃ m, (marshalPublicKey stdFormats new).take n =
        PEM.beginLine keyType ++ (new.lines ++ PEM.endLine keyType).take m ∧
      overlay stdFormats new n (marshalPublicKey stdFormats old ++ rest) =
        PEM.beginLine keyType ++ mixed old new m rest := by
  let written := (new.lines ++ PEM.endLine keyType).take (n - (PEM.beginLine keyType).length)
  have htake : (marshalPublicKey stdFormats new).take n = PEM.beginLine keyType ++ written := by
    rw [marshalPublicKey_eq, List.take_append, List.take_of_length_le hn]
  have hwritten : written = (new.lines ++ PEM.endLine keyType).take written.length :=
    (List.prefix_iff_eq_take.mp (List.take_prefix _ _))
  refine ⟨written.length, by rw [htake, ← hwritten], ?_⟩
  rw [overlay, htake, mixed, ← hwritten, marshalPublicKey_eq, List.length_append, List.append_assoc,
    List.append_assoc, List.append_assoc, ← List.drop_drop, List.drop_left]

theorem prefix_of_overlay_read {old new : PublicKey} {rest : List UInt8} (hrest : Leftover rest)
    (h : unmarshalPublicKey stdFormats
      (overlay stdFormats new n (marshalPublicKey stdFormats old ++ rest)) = .ok old) :
    (marshalPublicKey stdFormats new).take n <+: marshalPublicKey stdFormats old ++ rest := by
  rw [marshalPublicKey_eq old, List.append_assoc, List.append_assoc]
  rcases Nat.le_total n (PEM.beginLine keyType).length with hn | hn
  · -- the BEGIN lines are the same
    rw [marshalPublicKey_eq, List.take_append_of_le_length hn]
    exact (List.take_prefix _ _).trans (List.prefix_append _ _)
  · obtain ⟨m, htake, hoverlay⟩ := overlay_eq_mixed old new rest hn
    rw [hoverlay] at h
    obtain ⟨block, rest', hdecode, hparse⟩ := unmarshalPublicKey_inv h
    obtain ⟨p, hp, heq⟩ := Option.map_eq_some_iff.mp hdecode
    cases heq
    rw [htake, List.prefix_append_right_inj]
    exact take_prefix_of_read hrest hp hparse

/-- A failed `AddKey` always leaves something.  A failed `ChangeKey` leaves nothing if the file began
with the bytes that it has written, so if it has written none; where the file held a key, only then. -/
theorem kept_iff_begins_alike {key : PublicKey} (hwrites : call.Writes stdFormats files id) :
    (call.Kept stdFormats files id key n err → call = .changeKey) ∧
    ∀ content, call = .changeKey → files.lookup (keyPath stdFormats id) = some content →
      ((marshalPublicKey stdFormats key).take n <+: content →
        call.Kept stdFormats files id key n err) ∧
      (HoldsKey content → call.Kept stdFormats files id key n err →
        (marshalPublicKey stdFormats key).take n <+: content) := by
  obtain ⟨hid, hfile⟩ := hwrites
  cases call with
  | addKey => exact ⟨fun h ↦ absurd h (not_kept_addKey hid hfile), fun content h ↦ (by cases h)⟩
  | changeKey =>
      refine ⟨fun _ ↦ rfl, fun content _ hcontent ↦ ?_⟩
      rw [kept_changeKey_iff hid hcontent]
      constructor
      · intro hbegins
        rw [overlay_of_begins hbegins]
      · rintro ⟨old, rest, rfl, hrest⟩ hsame
        rw [unmarshal_marshal] at hsame
        exact prefix_of_overlay_read hrest hsame

def smallKey : PublicKey := ⟨15, 3, by decide, by decide, by decide, by decide +kernel⟩

def otherKey : PublicKey := ⟨21, 3, by decide, by decide, by decide, by decide +kernel⟩

def smallFiles : Files :=
  AList.singleton (keyPath stdFormats (.replicate 16 1)) (marshalPublicKey stdFormats smallKey)

/-- A change that has failed before its first byte, and one that has failed before its last. -/
theorem kept_before_first_byte :
    WriteCall.changeKey.Kept stdFormats smallFiles (.replicate 16 1) otherKey 0 .exist ∧
      ¬ WriteCall.changeKey.Kept stdFormats smallFiles (.replicate 16 1) otherKey 72 .exist := by
  have hwrites : WriteCall.changeKey.Writes stdFormats smallFiles (.replicate 16 1) :=
    ⟨by decide, by decide +kernel⟩
  have hfile : smallFiles.lookup (keyPath stdFormats (.replicate 16 1)) =
      some (marshalPublicKey stdFormats smallKey) := by decide +kernel
  have hholds : HoldsKey (marshalPublicKey stdFormats smallKey) :=
    ⟨smallKey, [], (List.append_nil _).symm, leftover_nil⟩
  refine ⟨((kept_iff_begins_alike hwrites).2 _ rfl hfile).1 List.nil_prefix, fun h ↦ ?_⟩
  have hbegins := ((kept_iff_begins_alike hwrites).2 _ rfl hfile).2 hholds h
  exact absurd hbegins (by decide +kernel)

/-- An `AddKey` whose write has failed before its first byte leaves an empty file.  The key is then no
longer missing but broken, and it can not be added again. -/
theorem addKey_leaves_broken_key :
    WriteCall.addKey.Writes stdFormats ∅ (.replicate 16 1) ∧
    0 < (marshalPublicKey stdFormats smallKey).length ∧
    getKey stdFormats .none ∅ (.replicate 16 1) =
      .error (makeError .notExist "can't read key") ∧
    getKey stdFormats .none
        (WriteCall.addKey.left stdFormats ∅ (.replicate 16 1) smallKey 0 (.other "no space left"))
        (.replicate 16 1) =
      .error (.x .internalError "can't parse PEM file") ∧
    (addKey stdFormats .none
        (WriteCall.addKey.left stdFormats ∅ (.replicate 16 1) smallKey 0 (.other "no space left"))
        (.replicate 16 1) smallKey).1 =
      some (.xNested .entryExists "key with same ID already exists" OSError.exist.error) ∧
    ¬ WriteCall.addKey.Kept stdFormats ∅ (.replicate 16 1) smallKey 0 (.other "no space left") :=
  ⟨⟨by decide, rfl⟩, by decide +kernel, by decide +kernel, by decide +kernel, by decide +kernel,
    not_kept_addKey (by decide) rfl⟩

end CommonLib.XCrypto
