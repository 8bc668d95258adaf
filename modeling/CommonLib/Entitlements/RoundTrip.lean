import CommonLib.Entitlements.Encoding

/-! Which entitlements come back from their serialised form. -/

namespace CommonLib.Entitlements

open Reasoning

/-! ## Built values -/

/-- The calls that fill an `Entitlements`. -/
inductive Setter
  | wireguard (v : Bool)
  | ipRose (v : Bool)
  | proxy (v : Bool)
  | ads (v : Bool)
  | shapeUpstream (v : Int64)
  | shapeDownstream (v : Int64)
  | restrictions (v : GoString)

namespace Setter

def apply (s : Entitlements) : Setter → Entitlements
  | wireguard v => s.setWireguard v
  | ipRose v => s.setIPRose v
  | proxy v => s.setProxy v
  | ads v => s.setAds v
  | shapeUpstream v => s.setShapeUpstream v
  | shapeDownstream v => s.setShapeDownstream v
  | restrictions v => s.setRestrictions v

def key : Setter → GoString
  | wireguard _ => Key.wireguard
  | ipRose _ => Key.ipRose
  | proxy _ => Key.proxy
  | ads _ => Key.ads
  | shapeUpstream _ => Key.shapeUpstream
  | shapeDownstream _ => Key.shapeDownstream
  | restrictions _ => Key.restrictions

def value : Setter → Any
  | wireguard v | ipRose v | proxy v | ads v => .bool v
  | shapeUpstream v | shapeDownstream v => .int v
  | restrictions v => .string v

theorem apply_eq (s : Entitlements) (op : Setter) : op.apply s = s.insert op.key op.value := by
  cases op <;> rfl

/-- The keys under which numbers are stored. -/
def ShapeKey (key : GoString) : Prop := key = Key.shapeUpstream ∨ key = Key.shapeDownstream

instance (key : GoString) : Decidable (ShapeKey key) := inferInstanceAs (Decidable (_ ∨ _))

/-- The setter limits the traffic: it is one of the two that store a number. -/
def Shapes (op : Setter) : Prop := ShapeKey op.key

theorem value_of_shapes {op : Setter} (h : op.Shapes) : ∃ v, op.value = .int v := by
  cases op with
  | shapeUpstream v => exact ⟨v, rfl⟩
  | shapeDownstream v => exact ⟨v, rfl⟩
  | wireguard v => exact absurd h (show ¬ ShapeKey Key.wireguard by decide)
  | ipRose v => exact absurd h (show ¬ ShapeKey Key.ipRose by decide)
  | proxy v => exact absurd h (show ¬ ShapeKey Key.proxy by decide)
  | ads v => exact absurd h (show ¬ ShapeKey Key.ads by decide)
  | restrictions v => exact absurd h (show ¬ ShapeKey Key.restrictions by decide)

/-- Only the restrictions are a text. -/
theorem value_of_key_ne {op : Setter} (h : op.key ≠ Key.restrictions) :
    (∃ v, op.value = .bool v) ∨ ∃ v, op.value = .int v := by
  cases op with
  | wireguard v => exact .inl ⟨v, rfl⟩
  | ipRose v => exact .inl ⟨v, rfl⟩
  | proxy v => exact .inl ⟨v, rfl⟩
  | ads v => exact .inl ⟨v, rfl⟩
  | shapeUpstream v => exact .inr ⟨v, rfl⟩
  | shapeDownstream v => exact .inr ⟨v, rfl⟩
  | restrictions v => exact absurd rfl h

theorem toValid_key (op : Setter) : UTF8.toValid op.key = op.key := by
  cases op <;> rfl

theorem plain_int (v : Int64) : (Any.int v).toJSON.Plain := by
  have hlow := v.le_toInt
  have hhigh := v.toInt_lt
  exact ⟨v.toInt, rfl, abs_le.mpr ⟨by omega, by omega⟩⟩

theorem plain_value (op : Setter) : op.value.toJSON.Plain := by
  cases op with
  | shapeUpstream v => exact plain_int v
  | shapeDownstream v => exact plain_int v
  | wireguard v => trivial
  | ipRose v => trivial
  | proxy v => trivial
  | ads v => trivial
  | restrictions v => trivial

end Setter

/-- The value that a sequence of setter calls leaves in an empty map. -/
def build (ops : List Setter) : Entitlements := ops.foldl Setter.apply ∅

theorem build_concat (ops : List Setter) (op : Setter) :
    build (ops ++ [op]) = (build ops).insert op.key op.value := by
  rw [build, List.foldl_append, List.foldl_cons, List.foldl_nil, Setter.apply_eq]
  rfl

theorem lookup_build {ops : List Setter} {key : GoString} {v : Any}
    (h : (build ops).lookup key = some v) : ∃ op ∈ ops, op.key = key ∧ op.value = v := by
  induction ops using List.reverseRecOn with
  | nil => exact absurd h (by simp [build])
  | append_singleton ops op ih =>
      rw [build_concat] at h
      by_cases hkey : key = op.key
      · subst hkey
        rw [AList.lookup_insert] at h
        exact ⟨op, by simp, rfl, Option.some.inj h⟩
      · rw [AList.lookup_insert_ne hkey] at h
        obtain ⟨earlier, hmem, hfound⟩ := ih h
        exact ⟨earlier, List.mem_append_left _ hmem, hfound⟩

theorem lookup_build_ne_none {ops : List Setter} {op : Setter} (h : op ∈ ops) :
    (build ops).lookup op.key ≠ none := by
  induction ops using List.reverseRecOn with
  | nil => exact absurd h List.not_mem_nil
  | append_singleton ops last ih =>
      rw [build_concat]
      by_cases hkey : op.key = last.key
      · rw [hkey, AList.lookup_insert]
        exact Option.some_ne_none _
      · rw [AList.lookup_insert_ne hkey]
        apply ih
        obtain hmem | hmem := List.mem_append.mp h
        · exact hmem
        · exact absurd (congrArg Setter.key (List.mem_singleton.mp hmem)) hkey

/-! ## What comes back -/

/-- A value after it was written and read again. -/
def Any.Reloads (v w : Any) : Prop := ∃ j, v.toJSON.Returns j ∧ w = j.toAny

theorem Any.Reloads.bool {v : Bool} {w : Any} (h : (Any.bool v).Reloads w) : w = .bool v := by
  obtain ⟨j, hj, rfl⟩ := h
  cases hj
  rfl

theorem Any.Reloads.string {v : GoString} {w : Any} (h : (Any.string v).Reloads w) :
    w = .string (UTF8.toValid v) := by
  obtain ⟨j, hj, rfl⟩ := h
  cases hj
  rfl

/-- Every number comes back as a `float64`. -/
theorem Any.Reloads.int {v : Int64} {w : Any} (h : (Any.int v).Reloads w) : ∃ q, w = .float64 q := by
  obtain ⟨j, hj, rfl⟩ := h
  cases hj with
  | number v w => exact ⟨w, rfl⟩

/-- `back` holds what the decoder makes of the values of `s`. -/
def Reloads (s back : Entitlements) : Prop :=
  ∀ key, Option.Rel Any.Reloads (s.lookup key) (back.lookup key)

section

variable (codec : Codec)

theorem parseJSON_json (ops : List Setter) :
    ∃ text back, (build ops).json codec = some text ∧
      Entitlements.parseJSON codec text = some back ∧ Reloads (build ops) back := by
  have hplain : ∀ key v, (GoMap.map Any.toJSON (build ops)).lookup key = some v →
      UTF8.toValid key = key ∧ v.Plain := by
    intro key v hv
    rw [GoMap.lookup_map, Option.map_eq_some_iff] at hv
    obtain ⟨a, ha, rfl⟩ := hv
    obtain ⟨op, -, rfl, rfl⟩ := lookup_build ha
    exact ⟨op.toValid_key, op.plain_value⟩
  obtain ⟨text, object, hmarshal, hunmarshal, hsame⟩ := codec.roundTrip _ hplain
  refine ⟨text, GoMap.map JSON.toAny object, hmarshal, ?_, ?_⟩
  · rw [Entitlements.parseJSON, hunmarshal]
    rfl
  · intro key
    have hkey := hsame key
    rw [GoMap.lookup_map] at hkey
    rw [GoMap.lookup_map]
    cases hstored : (build ops).lookup key with
    | none =>
        rw [hstored] at hkey
        generalize object.lookup key = back at hkey
        cases hkey
        exact .none
    | some v =>
        rw [hstored] at hkey
        generalize object.lookup key = back at hkey
        cases hkey with
        | some hreturns => exact .some ⟨_, hreturns, rfl⟩

/-- The Base64 text carries the same JSON. -/
theorem fromBase64String_encode (text : List UInt8) :
    Entitlements.fromBase64String codec (Base64.encode text) =
      Entitlements.parseJSON codec text := by
  rw [Entitlements.fromBase64String, Base64.decode_encode]
  rfl

end

/-- The results of the getters. -/
structure View where
  hasWireguard : Bool
  hasIPRose : Bool
  hasProxy : Bool
  hasAds : Bool
  isPaid : Bool
  isFree : Bool
  shapeUpstream : Int64 × Bool
  shapeDownstream : Int64 × Bool
  restrictions : GoString × Bool
deriving DecidableEq

def Entitlements.view (s : Entitlements) : View where
  hasWireguard := s.hasWireguard
  hasIPRose := s.hasIPRose
  hasProxy := s.hasProxy
  hasAds := s.hasAds
  isPaid := s.isPaid
  isFree := s.isFree
  shapeUpstream := s.shapeUpstream
  shapeDownstream := s.shapeDownstream
  restrictions := s.restrictions

section

variable {s back : Entitlements}

theorem restrictions_reload (h : Reloads s back) :
    back.restrictions = (UTF8.toValid s.restrictions.1, s.restrictions.2) := by
  have hkey := h Key.restrictions
  rw [Entitlements.restrictions, Entitlements.restrictions]
  generalize s.lookup Key.restrictions = v at hkey ⊢
  generalize back.lookup Key.restrictions = w at hkey ⊢
  cases hkey with
  | none => rfl
  | some hreloads =>
      obtain ⟨j, hj, rfl⟩ := hreloads
      rename_i v
      cases v <;> cases hj <;> rfl

variable {ops : List Setter}

/-- A value under another key than the restrictions comes back as it was, or as a `float64`. -/
theorem lookup_reload (h : Reloads (build ops) back) {key : GoString}
    (hkey : key ≠ Key.restrictions) :
    (∀ v, (build ops).lookup key ≠ some (.int v)) ∧ back.lookup key = (build ops).lookup key ∨
      ∃ v q, (build ops).lookup key = some (.int v) ∧ back.lookup key = some (.float64 q) := by
  have hback := h key
  cases hstored : (build ops).lookup key with
  | none =>
      rw [hstored] at hback
      generalize back.lookup key = w at hback
      cases hback
      exact .inl ⟨fun v hv ↦ (by cases hv), rfl⟩
  | some v =>
      obtain ⟨op, -, rfl, rfl⟩ := lookup_build hstored
      rw [hstored] at hback
      generalize back.lookup op.key = w at hback
      cases hback with
      | some hreloads =>
          obtain ⟨v, hv⟩ | ⟨v, hv⟩ := Setter.value_of_key_ne hkey
          · rw [hv] at hreloads ⊢
            rw [hreloads.bool]
            exact .inl ⟨fun v hv ↦ (by cases hv), rfl⟩
          · rw [hv] at hreloads ⊢
            obtain ⟨q, rfl⟩ := hreloads.int
            exact .inr ⟨v, q, rfl, rfl⟩

theorem asBool_lookup (h : Reloads (build ops) back) (key : GoString)
    (hkey : key ≠ Key.restrictions) :
    asBool (back.lookup key) = asBool ((build ops).lookup key) := by
  obtain ⟨-, hsame⟩ | ⟨v, q, hstored, hback⟩ := lookup_reload h hkey
  · rw [hsame]
  · rw [hstored, hback]
    rfl

/-- The numbers come back as `float64`, which `asInt` does not know. -/
theorem asInt_lookup (h : Reloads (build ops) back) {key : GoString}
    (hkey : Setter.ShapeKey key) : asInt (back.lookup key) = (0, false) := by
  have hne : key ≠ Key.restrictions := by
    rintro rfl
    exact absurd hkey (by decide)
  obtain ⟨hnumber, hsame⟩ | ⟨v, q, -, hback⟩ := lookup_reload h hne
  · rw [hsame]
    cases hstored : (build ops).lookup key with
    | none => rfl
    | some v =>
        obtain ⟨op, -, rfl, rfl⟩ := lookup_build hstored
        obtain ⟨n, hn⟩ := Setter.value_of_shapes hkey
        exact absurd (hn ▸ hstored) (hnumber n)
  · rw [hback]
    rfl

/-- Every getter but those of the two limits gives what it gave before, the restrictions with the
bytes replaced that are not UTF-8. -/
theorem view_reload (h : Reloads (build ops) back) :
    back.view = { (build ops).view with
      shapeUpstream := (0, false), shapeDownstream := (0, false),
      restrictions := (UTF8.toValid (build ops).restrictions.1, (build ops).restrictions.2) } := by
  have hwireguard := asBool_lookup h Key.wireguard (by decide)
  have hipRose := asBool_lookup h Key.ipRose (by decide)
  have hproxy := asBool_lookup h Key.proxy (by decide)
  have hads := asBool_lookup h Key.ads (by decide)
  simp only [Entitlements.view, Entitlements.hasWireguard, Entitlements.hasIPRose,
    Entitlements.hasProxy, Entitlements.isPaid, Entitlements.isFree, Entitlements.hasAds,
    Entitlements.shapeUpstream, Entitlements.shapeDownstream, hwireguard, hipRose, hproxy, hads,
    restrictions_reload h, asInt_lookup h (.inl rfl), asInt_lookup h (.inr rfl)]

end

/-- A limit that was set is found. -/
theorem asInt_build_eq_iff (ops : List Setter) {key : GoString} (hkey : Setter.ShapeKey key) :
    asInt ((build ops).lookup key) = (0, false) ↔ ∀ op ∈ ops, op.key ≠ key := by
  constructor
  · rintro hint op hmem rfl
    cases hstored : (build ops).lookup op.key with
    | none => exact lookup_build_ne_none hmem hstored
    | some v =>
        obtain ⟨last, -, hlast, rfl⟩ := lookup_build hstored
        have hshapes : last.Shapes := by
          rw [Setter.Shapes, hlast]
          exact hkey
        obtain ⟨n, hn⟩ := Setter.value_of_shapes hshapes
        rw [hstored, hn] at hint
        exact absurd (congrArg Prod.snd hint) (by simp [asInt])
  · intro hnone
    cases hstored : (build ops).lookup key with
    | none => rfl
    | some v =>
        obtain ⟨op, hmem, hop, -⟩ := lookup_build hstored
        exact absurd hop (hnone op hmem)

/-! ## Serialisation -/

/-- Both serialised forms are read back, to a value on which every getter gives the same. -/
def Survives (codec : Codec) (s : Entitlements) : Prop :=
  (∃ text back, s.base64String codec = some text ∧
    Entitlements.fromBase64String codec text = some back ∧ back.view = s.view) ∧
  (∃ text back, s.json codec = some text ∧
    Entitlements.parseJSON codec text = some back ∧ back.view = s.view)

theorem survives_iff_view {codec : Codec} {s back : Entitlements} {text : List UInt8}
    (hjson : s.json codec = some text)
    (hparse : Entitlements.parseJSON codec text = some back) :
    Survives codec s ↔ back.view = s.view := by
  have hbase : s.base64String codec = some (Base64.encode text) := by
    rw [Entitlements.base64String, hjson]
    rfl
  have hfrom : Entitlements.fromBase64String codec (Base64.encode text) = some back := by
    rw [fromBase64String_encode, hparse]
  constructor
  · rintro ⟨-, text', back', hjson', hparse', hview⟩
    cases hjson.symm.trans hjson'
    cases hparse.symm.trans hparse'
    exact hview
  · intro hview
    exact ⟨⟨_, _, hbase, hfrom, hview⟩, _, _, hjson, hparse, hview⟩

/-- A value survives exactly when no traffic limit was ever set in it and its restrictions are
UTF-8. -/
theorem survives_iff_unshaped (codec : Codec) (ops : List Setter) :
    Survives codec (build ops) ↔ (∀ op ∈ ops, ¬ op.Shapes) ∧
      UTF8.toValid (build ops).restrictions.1 = (build ops).restrictions.1 := by
  obtain ⟨text, back, hjson, hparse, hback⟩ := parseJSON_json codec ops
  have hup := asInt_build_eq_iff ops (.inl rfl)
  have hdown := asInt_build_eq_iff ops (.inr rfl)
  rw [survives_iff_view hjson hparse, view_reload hback]
  constructor
  · intro hview
    refine ⟨fun op hmem hshapes ↦ ?_, congrArg Prod.fst (congrArg View.restrictions hview)⟩
    -- the two limits are as unset before the round trip as they are after it
    obtain hkey | hkey := hshapes
    · exact hup.mp (congrArg View.shapeUpstream hview).symm op hmem hkey
    · exact hdown.mp (congrArg View.shapeDownstream hview).symm op hmem hkey
  · rintro ⟨hnone, hvalid⟩
    have hup := hup.mpr fun op hmem hkey ↦ hnone op hmem (.inl hkey)
    have hdown := hdown.mpr fun op hmem hkey ↦ hnone op hmem (.inr hkey)
    simp only [Entitlements.view, Entitlements.shapeUpstream, Entitlements.shapeDownstream,
      hup, hdown, hvalid]

/-- A limit of 100 upstream reads as no limit after the round trip, whatever the codec. -/
theorem shapeUpstream_lost : Nonempty Codec ∧ ∀ codec : Codec,
    (build [.shapeUpstream 100]).shapeUpstream = (100, true) ∧
      (∃ text back, (build [.shapeUpstream 100]).json codec = some text ∧
        Entitlements.parseJSON codec text = some back ∧ back.shapeUpstream = (0, false)) ∧
      ¬ Survives codec (build [.shapeUpstream 100]) := by
  refine ⟨⟨encodingJSON⟩, fun codec ↦ ?_⟩
  obtain ⟨text, back, hjson, hparse, hback⟩ := parseJSON_json codec [.shapeUpstream 100]
  have hlost : back.shapeUpstream = (0, false) := asInt_lookup hback (.inl rfl)
  have hset : (build [.shapeUpstream 100]).shapeUpstream = (100, true) := by decide
  refine ⟨hset, ⟨text, back, hjson, hparse, hlost⟩, ?_⟩
  intro hsurvives
  have hview := (survives_iff_view hjson hparse).mp hsurvives
  have hsame : back.shapeUpstream = (build [.shapeUpstream 100]).shapeUpstream :=
    congrArg View.shapeUpstream hview
  rw [hlost, hset] at hsame
  exact absurd hsame (by decide)

end CommonLib.Entitlements
