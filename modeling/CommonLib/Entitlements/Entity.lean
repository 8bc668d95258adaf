import CommonLib.Reasoning.Base64
import CommonLib.Reasoning.GoMap
import CommonLib.Reasoning.UTF8

/-! `entitlements/entity.go`: what a subscription allows, kept in a `map[string]any` that
travels as JSON. -/

namespace CommonLib.Entitlements

open Reasoning

/-- The dynamic values that the setters store and the JSON decoder produces. -/
inductive Any
  | nil
  | bool (v : Bool)
  | string (v : GoString)
  | int (v : Int64)
  | int64 (v : Int64)
  | int32 (v : Int32)
  | uint64 (v : UInt64)
  | uint32 (v : UInt32)
  | uint (v : UInt64)
  /-- The `float64` nearest to a number. -/
  | float64 (v : ℚ)
  /-- A `[]any` or a `map[string]any`, as the text it was read from. -/
  | compound (text : GoString)

/-- The values of a JSON object. -/
inductive JSON
  | null
  | bool (v : Bool)
  | number (v : ℚ)
  | string (v : GoString)
  | compound (text : GoString)

/-- What `json.Marshal` writes for an `any`. -/
def Any.toJSON : Any → JSON
  | .nil => .null
  | .bool v => .bool v
  | .string v => .string v
  | .int v => .number v.toInt
  | .int64 v => .number v.toInt
  | .int32 v => .number v.toInt
  | .uint64 v => .number v.toNat
  | .uint32 v => .number v.toNat
  | .uint v => .number v.toNat
  | .float64 v => .number v
  | .compound text => .compound text

/-- What `json.Unmarshal` stores into an `any`: every number becomes a `float64`. -/
def JSON.toAny : JSON → Any
  | .null => .nil
  | .bool v => .bool v
  | .number v => .float64 v
  | .string v => .string v
  | .compound text => .compound text

/-- The values that the setters leave: an integer has 64 bits. -/
def JSON.Plain : JSON → Prop
  | .null | .bool _ | .string _ => True
  | .number v => ∃ n : Int, v = n ∧ |n| ≤ 2 ^ 64
  | .compound _ => False

/-- What a value comes back as.  The bytes of a text that are not UTF-8 are replaced; a number is
rounded to a `float64`, which holds every integer of magnitude below `2 ^ 53`. -/
inductive JSON.Returns : JSON → JSON → Prop
  | null : Returns .null .null
  | bool (v : Bool) : Returns (.bool v) (.bool v)
  | string (v : GoString) : Returns (.string v) (.string (UTF8.toValid v))
  | number (v w : ℚ) (h : |v| < 2 ^ 53 → w = v) : Returns (.number v) (.number w)

/-- `encoding/json` between objects and texts.  An object comes back with the same fields, though
not in the same order. -/
structure Codec where
  marshal : GoMap GoString JSON → Option (List UInt8)
  unmarshal : List UInt8 → Option (GoMap GoString JSON)
  roundTrip : ∀ object : GoMap GoString JSON,
    (∀ key v, object.lookup key = some v → UTF8.toValid key = key ∧ v.Plain) →
    ∃ text back, marshal object = some text ∧ unmarshal text = some back ∧
      ∀ key, Option.Rel JSON.Returns (object.lookup key) (back.lookup key)

/-- `type Entitlements map[string]any`. -/
abbrev Entitlements := GoMap GoString Any

namespace Key

def wireguard : GoString := .ofASCII "wireguard"
def ipRose : GoString := .ofASCII "iprose"
def proxy : GoString := .ofASCII "proxy"
def shapeDownstream : GoString := .ofASCII "shape_downstream"
def shapeUpstream : GoString := .ofASCII "shape_upstream"
def ads : GoString := .ofASCII "ads"
def restrictions : GoString := .ofASCII "restrictions"

end Key

/-- `asBool`: the value, and whether there is one. -/
def asBool : Option Any → Bool × Bool
  | some (.bool v) => (v, true)
  | some (.string v) =>
      if v = .ofASCII "true" then (true, true)
      else (false, decide (v = .ofASCII "false"))
  | _ => (false, false)

/-- `asInt`: the value, and whether there is one. -/
def asInt : Option Any → Int64 × Bool
  | some (.int64 v) => (v, true)
  | some (.int32 v) => (v.toInt64, true)
  | some (.uint64 v) => (v.toInt64, true)
  | some (.uint32 v) => (v.toUInt64.toInt64, true)
  | some (.uint v) => (v.toInt64, true)
  | some (.int v) => (v, true)
  | some (.string v) =>
      match v.atoi with
      | none => (0, false)
      | some i => (i, true)
  | _ => (0, false)

namespace Entitlements

section Serialisation

variable (codec : Codec)

def json (s : Entitlements) : Option (List UInt8) := codec.marshal (GoMap.map Any.toJSON s)

def base64String (s : Entitlements) : Option GoString := do
  let j ← s.json codec
  some (Base64.encode j)

def parseJSON (v : List UInt8) : Option Entitlements := do
  let object ← codec.unmarshal v
  some (GoMap.map JSON.toAny object)

def fromBase64String (v : GoString) : Option Entitlements := do
  let j ← Base64.decode v
  parseJSON codec j

end Serialisation

def setWireguard (s : Entitlements) (v : Bool) : Entitlements := s.insert Key.wireguard (.bool v)

def hasWireguard (s : Entitlements) : Bool := (asBool (s.lookup Key.wireguard)).1

def setIPRose (s : Entitlements) (v : Bool) : Entitlements := s.insert Key.ipRose (.bool v)

def hasIPRose (s : Entitlements) : Bool := (asBool (s.lookup Key.ipRose)).1

def setProxy (s : Entitlements) (v : Bool) : Entitlements := s.insert Key.proxy (.bool v)

def hasProxy (s : Entitlements) : Bool := (asBool (s.lookup Key.proxy)).1

def setAds (s : Entitlements) (v : Bool) : Entitlements := s.insert Key.ads (.bool v)

def hasAds (s : Entitlements) : Bool := (asBool (s.lookup Key.ads)).1

def isPaid (s : Entitlements) : Bool := !s.hasAds

def isFree (s : Entitlements) : Bool := s.hasAds

def setShapeUpstream (s : Entitlements) (v : Int64) : Entitlements :=
  s.insert Key.shapeUpstream (.int v)

def shapeUpstream (s : Entitlements) : Int64 × Bool := asInt (s.lookup Key.shapeUpstream)

def setShapeDownstream (s : Entitlements) (v : Int64) : Entitlements :=
  s.insert Key.shapeDownstream (.int v)

def shapeDownstream (s : Entitlements) : Int64 × Bool := asInt (s.lookup Key.shapeDownstream)

def restrictions (s : Entitlements) : GoString × Bool :=
  match s.lookup Key.restrictions with
  | some (.string v) => (v, true)
  | _ => ([], false)

def setRestrictions (s : Entitlements) (v : GoString) : Entitlements :=
  s.insert Key.restrictions (.string v)

end Entitlements

end CommonLib.Entitlements
