import CommonLib.Reasoning.Run
import CommonLib.XCrypto.RSAKeeper

/-!
# The keeper as a map

As long as the file operations succeed, the keeper answers like a map from ids to keys.  What carries
this is that every file starts with the encoding of its key: whatever older keys have left behind it
is not read.
-/

namespace CommonLib.XCrypto

open Reasoning XError

inductive Call (Key : Type)
  | addKey (id : UUID) (key : Key)
  | changeKey (id : UUID) (key : Key)
  | deleteKey (id : UUID)
  | getKey (id : UUID)
  | listKeys

inductive Reply (Key : Type)
  | done (err : Option GoError)
  | key (result : Except GoError Key)
  | keys (result : Except GoError (List (UUID × Key)))

/-- A call whose file operations succeed. -/
def exec {Key : Type} (F : Formats Key) : Call Key → Files → Reply Key × Files
  | .addKey id key, files =>
      let (err, files) := addKey F .none files id key
      (.done err, files)
  | .changeKey id key, files =>
      let (err, files) := changeKey F .none files id key
      (.done err, files)
  | .deleteKey id, files =>
      let (err, files) := deleteKey F .none files id
      (.done err, files)
  | .getKey id, files => (.key (getKey F .none files id), files)
  | .listKeys, files => (.keys (listKeys F .none files), files)

/-! ## The map -/

abbrev KeyMap (Key : Type) := UUID → Option Key

inductive Outcome (Key : Type)
  | failed
  | done
  | key (key : Key)
  | keys (m : KeyMap Key)

namespace KeyMap

variable {Key : Type}

def store (m : KeyMap Key) (id : UUID) (key : Option Key) : KeyMap Key := Function.update m id key

/-- The calls on a map of ids other than `uuid.Nil`; one that fails changes nothing. -/
def step : Call Key → KeyMap Key → Outcome Key × KeyMap Key
  | .addKey id key, m =>
      if id = .nil ∨ (m id).isSome then (.failed, m) else (.done, m.store id (some key))
  | .changeKey id key, m =>
      if (m id).isSome then (.done, m.store id (some key)) else (.failed, m)
  | .deleteKey id, m => if (m id).isSome then (.done, m.store id none) else (.failed, m)
  | .getKey id, m =>
      match m id with
      | some key => (.key key, m)
      | none => (.failed, m)
  | .listKeys, m => (.keys m, m)

end KeyMap

/-- The keeper's reply is the map's: it lists every id once, with its key. -/
def Matches {Key : Type} : Reply Key → Outcome Key → Prop
  | .done err, .done => err = none
  | .done err, .failed => err ≠ none
  | .key result, .key key => result = .ok key
  | .key result, .failed => ∃ err, result = .error err
  | .keys result, .keys m => ∃ listed, result = .ok listed ∧ (listed.map Prod.fst).Nodup ∧
      ∀ id key, (id, key) ∈ listed ↔ m id = some key
  | _, _ => False

section

variable {Key : Type} {F : Formats Key} {files : Files} {m : KeyMap Key} {id : UUID} {key : Key}
  {content : List UInt8}

/-! ## One call on the files -/

theorem writeKey_nil {faults : Faults} {flags : OpenFlags} (hid : id = .nil) :
    writeKey F faults files id key flags =
      (some (.x .invalidArgument "nil uuid is not allowed"), files) :=
  if_pos hid

theorem addKey_of_none (hid : id ≠ .nil) (hfile : files.lookup (F.uuidString id) = none) :
    addKey F .none files id key =
      (none, files.insert (F.uuidString id) (marshalPublicKey F key ++ [])) := by
  simp only [addKey, writeKey, if_neg hid, openFile, Faults.none, keyPath, hfile, writeFile,
    AList.lookup_insert, Option.getD_some, List.drop_nil, AList.insert_insert]

theorem addKey_of_some (hid : id ≠ .nil) (hfile : files.lookup (F.uuidString id) = some content) :
    ∃ err, addKey F .none files id key = (some err, files) := by
  simp only [addKey, writeKey, if_neg hid, openFile, Faults.none, keyPath, hfile]
  exact ⟨_, rfl⟩

theorem changeKey_of_none (key : Key) (hfile : files.lookup (F.uuidString id) = none) :
    ∃ err, changeKey F .none files id key = (some err, files) := by
  by_cases hid : id = .nil
  · exact ⟨_, writeKey_nil hid⟩
  · simp only [changeKey, writeKey, if_neg hid, openFile, Faults.none, keyPath, hfile]
    exact ⟨_, rfl⟩

/-- What the old content has beyond the length of the new key stays in the file. -/
theorem changeKey_of_some (hid : id ≠ .nil) (key : Key)
    (hfile : files.lookup (F.uuidString id) = some content) :
    changeKey F .none files id key = (none, files.insert (F.uuidString id)
      (marshalPublicKey F key ++ content.drop (marshalPublicKey F key).length)) := by
  simp only [changeKey, writeKey, if_neg hid, openFile, Faults.none, keyPath, hfile, writeFile,
    Option.getD_some]

theorem deleteKey_of_none (hfile : files.lookup (F.uuidString id) = none) :
    ∃ err, deleteKey F .none files id = (some err, files) := by
  by_cases hid : id = .nil
  · exact ⟨_, if_pos hid⟩
  · simp only [deleteKey, if_neg hid, removeFile, Faults.none, keyPath, hfile]
    exact ⟨_, rfl⟩

theorem deleteKey_of_some (hid : id ≠ .nil)
    (hfile : files.lookup (F.uuidString id) = some content) :
    deleteKey F .none files id = (none, files.erase (F.uuidString id)) := by
  simp only [deleteKey, if_neg hid, removeFile, Faults.none, keyPath, hfile]

/-! ## The files hold the map -/

theorem unmarshal_marshal (F : Formats Key) (key : Key) (rest : List UInt8) :
    unmarshalPublicKey F (marshalPublicKey F key ++ rest) = .ok key := by
  rw [unmarshalPublicKey, marshalPublicKey, F.decode_encode]
  simp only [F.parse_marshal]

theorem uuidString_injective (F : Formats Key) : Function.Injective F.uuidString := by
  intro id id' h
  have hparse := F.uuidParse_string id
  rw [h, F.uuidParse_string] at hparse
  exact (Except.ok.inj hparse).symm

structure Holds (F : Formats Key) (files : Files) (m : KeyMap Key) : Prop where
  nil : m .nil = none
  file : ∀ id key, m id = some key →
    ∃ rest, files.lookup (F.uuidString id) = some (marshalPublicKey F key ++ rest)
  name : ∀ name content, files.lookup name = some content →
    ∃ id, name = F.uuidString id ∧ (m id).isSome

theorem holds_empty (F : Formats Key) : Holds F ∅ fun _ ↦ none where
  nil := rfl
  file id key h := by cases h
  name name content h := by cases h

namespace Holds

theorem lookup_eq_none (h : Holds F files m) (hid : m id = none) :
    files.lookup (F.uuidString id) = none := by
  by_contra hne
  obtain ⟨content, hcontent⟩ := Option.ne_none_iff_exists'.mp hne
  obtain ⟨id', hname, hsome⟩ := h.name _ content hcontent
  rw [← uuidString_injective F hname, hid] at hsome
  cases hsome

theorem ne_nil (h : Holds F files m) (hid : m id = some key) :
    id ≠ .nil := by
  rintro rfl
  cases h.nil.symm.trans hid

theorem readKey_of_some (h : Holds F files m) (hid : m id = some key) :
    readKey F .none files id = .ok key := by
  obtain ⟨rest, hfile⟩ := h.file id key hid
  rw [readKey, if_neg (h.ne_nil hid), keyPath, readFile, hfile]
  exact unmarshal_marshal F key rest

theorem readKey_of_none (h : Holds F files m) (hid : m id = none) :
    ∃ err, readKey F .none files id = .error err := by
  rw [readKey]
  split_ifs with hnil
  · exact ⟨_, rfl⟩
  · rw [keyPath, readFile, h.lookup_eq_none hid]
    exact ⟨_, rfl⟩

/-- The file of `id` now starts with the encoding of `key`. -/
theorem insert (h : Holds F files m) (hid : id ≠ .nil) (key : Key) (rest : List UInt8) :
    Holds F (files.insert (F.uuidString id) (marshalPublicKey F key ++ rest))
      (m.store id (some key)) where
  nil := by rw [KeyMap.store, Function.update_of_ne hid.symm, h.nil]
  file id' key' h' := by
    by_cases heq : id' = id
    · subst heq
      rw [KeyMap.store, Function.update_self, Option.some.injEq] at h'
      exact ⟨rest, by rw [AList.lookup_insert, h']⟩
    · rw [KeyMap.store, Function.update_of_ne heq] at h'
      rw [AList.lookup_insert_ne ((uuidString_injective F).ne heq)]
      exact h.file id' key' h'
  name name content h' := by
    by_cases heq : name = F.uuidString id
    · exact ⟨id, heq, by rw [KeyMap.store, Function.update_self]; rfl⟩
    · rw [AList.lookup_insert_ne heq] at h'
      obtain ⟨id', rfl, hsome⟩ := h.name name content h'
      have hne : id' ≠ id := fun hid' ↦ heq (congrArg _ hid')
      exact ⟨id', rfl, by rwa [KeyMap.store, Function.update_of_ne hne]⟩

theorem erase (h : Holds F files m) (id : UUID) :
    Holds F (files.erase (F.uuidString id)) (m.store id none) where
  nil := by
    by_cases heq : UUID.nil = id
    · rw [KeyMap.store, heq, Function.update_self]
    · rw [KeyMap.store, Function.update_of_ne heq, h.nil]
  file id' key' h' := by
    by_cases heq : id' = id
    · rw [heq, KeyMap.store, Function.update_self] at h'
      cases h'
    · rw [KeyMap.store, Function.update_of_ne heq] at h'
      rw [AList.lookup_erase_ne ((uuidString_injective F).ne heq)]
      exact h.file id' key' h'
  name name content h' := by
    have heq : name ≠ F.uuidString id := by
      rintro rfl
      rw [AList.lookup_erase] at h'
      cases h'
    rw [AList.lookup_erase_ne heq] at h'
    obtain ⟨id', rfl, hsome⟩ := h.name name content h'
    have hne : id' ≠ id := fun hid' ↦ heq (congrArg _ hid')
    exact ⟨id', rfl, by rwa [KeyMap.store, Function.update_of_ne hne]⟩

/-- Every file of the directory is listed. -/
theorem listedKey (h : Holds F files m) {name : GoString} (hname : name ∈ files) :
    ∃ id key, XCrypto.listedKey F .none files name = some (id, key) ∧ F.uuidString id = name ∧
      m id = some key := by
  obtain ⟨content, hcontent⟩ := Option.isSome_iff_exists.mp (AList.lookup_isSome.mpr hname)
  obtain ⟨id, rfl, hsome⟩ := h.name name content hcontent
  obtain ⟨key, hkey⟩ := Option.isSome_iff_exists.mp hsome
  refine ⟨id, key, ?_, rfl, hkey⟩
  rw [XCrypto.listedKey, F.uuidParse_string]
  simp only [h.readKey_of_some hkey]

theorem listKeys (h : Holds F files m) :
    ∃ listed, XCrypto.listKeys F .none files = .ok listed ∧ (listed.map Prod.fst).Nodup ∧
      ∀ id key, (id, key) ∈ listed ↔ m id = some key := by
  let names := files.keys.mergeSort fun a b ↦ decide (a ≤ b)
  have hperm : names.Perm files.keys := List.mergeSort_perm ..
  have hmem {name : GoString} : name ∈ names ↔ name ∈ files := hperm.mem_iff.trans AList.mem_keys.symm
  refine ⟨names.filterMap (XCrypto.listedKey F .none files), rfl, ?_, fun id key ↦ ?_⟩
  · -- the texts of the listed ids are the names, which are distinct
    have hback : ((names.filterMap (XCrypto.listedKey F .none files)).map Prod.fst).map
        F.uuidString = names := by
      rw [List.map_map, List.map_filterMap]
      refine (List.filterMap_congr fun name hname ↦ ?_).trans List.filterMap_some
      obtain ⟨id, key, hlisted, hid, -⟩ := h.listedKey (hmem.mp hname)
      rw [hlisted, Option.map_some, Function.comp_apply, hid]
    have hnodup : names.Nodup := hperm.nodup_iff.mpr files.keys_nodup
    rw [← hback] at hnodup
    exact hnodup.of_map
  · rw [List.mem_filterMap]
    constructor
    · rintro ⟨name, hname, hlisted⟩
      obtain ⟨id', key', hlisted', -, hkey⟩ := h.listedKey (hmem.mp hname)
      cases hlisted'.symm.trans hlisted
      exact hkey
    · intro hkey
      obtain ⟨rest, hfile⟩ := h.file id key hkey
      have hname : F.uuidString id ∈ files := AList.lookup_isSome.mp (by rw [hfile]; rfl)
      obtain ⟨id', key', hlisted, hid, hkey'⟩ := h.listedKey hname
      cases uuidString_injective F hid
      cases hkey.symm.trans hkey'
      exact ⟨_, hmem.mpr hname, hlisted⟩

theorem step (h : Holds F files m) (call : Call Key) :
    Matches (exec F call files).1 (m.step call).1 ∧ Holds F (exec F call files).2 (m.step call).2 := by
  cases call with
  | addKey id key =>
      rw [exec, KeyMap.step]
      split_ifs with hcond
      · obtain ⟨err, herr⟩ : ∃ err, addKey F .none files id key = (some err, files) := by
          by_cases hnil : id = .nil
          · exact ⟨_, writeKey_nil hnil⟩
          · obtain ⟨old, hold⟩ := Option.isSome_iff_exists.mp (hcond.resolve_left hnil)
            obtain ⟨rest, hfile⟩ := h.file id old hold
            exact addKey_of_some hnil hfile
        rw [herr]
        exact ⟨Option.some_ne_none err, h⟩
      · obtain ⟨hnil, hid⟩ := not_or.mp hcond
        rw [Bool.not_eq_true, Option.isSome_eq_false_iff, Option.isNone_iff_eq_none] at hid
        rw [addKey_of_none hnil (h.lookup_eq_none hid)]
        exact ⟨rfl, h.insert hnil key []⟩
  | changeKey id key =>
      rw [exec, KeyMap.step]
      cases hid : m id with
      | none =>
          obtain ⟨err, herr⟩ := changeKey_of_none key (h.lookup_eq_none hid)
          rw [herr]
          exact ⟨Option.some_ne_none err, h⟩
      | some old =>
          obtain ⟨rest, hfile⟩ := h.file id old hid
          rw [changeKey_of_some (h.ne_nil hid) key hfile]
          exact ⟨rfl, h.insert (h.ne_nil hid) key _⟩
  | deleteKey id =>
      rw [exec, KeyMap.step]
      cases hid : m id with
      | none =>
          obtain ⟨err, herr⟩ := deleteKey_of_none (h.lookup_eq_none hid)
          rw [herr]
          exact ⟨Option.some_ne_none err, h⟩
      | some key =>
          obtain ⟨rest, hfile⟩ := h.file id key hid
          rw [deleteKey_of_some (h.ne_nil hid) hfile]
          exact ⟨rfl, h.erase id⟩
  | getKey id =>
      rw [exec, KeyMap.step]
      cases hid : m id with
      | none => exact ⟨h.readKey_of_none hid, h⟩
      | some key => exact ⟨h.readKey_of_some hid, h⟩
  | listKeys => exact ⟨h.listKeys, h⟩

end Holds

end

/-- Whatever the lengths of the keys, the keeper replies to every sequence of calls on an empty
directory as the map does. -/
theorem keeper_matches_map {Key : Type} (F : Formats Key) (calls : List (Call Key)) :
    List.Forall₂ Matches (runTotal (exec F) calls ∅).1
      (runTotal KeyMap.step calls fun _ ↦ none).1 :=
  (runTotal_simulates (fun call _ _ h ↦ h.step call) calls (holds_empty F)).1

end CommonLib.XCrypto
