import CommonLib.Reasoning.JSON
import CommonLib.Reasoning.LittleEndian
import CommonLib.XCache.InPlace

/-!
# Traffic statistics

`service.go` and the parts of `utils.go` that it uses.  A session's traffic is added up in the
cache, in place, and reported when the cache hands the session over.
-/

namespace CommonLib.XStats

open CommonLib.Reasoning CommonLib.XError CommonLib.XCache

/-! ## Numbers in a value -/

def parseUint64 (d : Bytes) : UInt64 :=
  if d.length < 8 then 0 else UInt64.ofNat (leNat (d.take 8))

def setUint64 (v : UInt64) (d : Bytes) : Bytes :=
  if d.length < 8 then d else leBytes 8 v.toNat ++ d.drop 8

def parseUint16 (d : Bytes) : UInt16 :=
  if d.length < 2 then 0 else UInt16.ofNat (leNat (d.take 2))

def setUint16 (v : UInt16) (d : Bytes) : Bytes :=
  if d.length < 2 then d else leBytes 2 v.toNat ++ d.drop 2

/-- `PutUint64(d[off:], v)`. -/
def putUint64 (off : Nat) (v : UInt64) (d : Bytes) : Except Crash Bytes :=
  if d.length < off + 8 then .error .indexOutOfRange
  else .ok (d.take off ++ leBytes 8 v.toNat ++ d.drop (off + 8))

/-- The slice that is returned: `d` itself, which is written to, or a new one if `d` is empty. -/
def rxTx (rx tx : UInt64) (d : Bytes) : Except Crash Bytes := do
  let d := if d.length = 0 then List.replicate 16 0 else d
  let d ← putUint64 0 rx d
  putUint64 8 tx d

def parseRxTx (d : Bytes) : UInt64 × UInt64 :=
  if d.length < 16 then (0, 0)
  else (UInt64.ofNat (leNat (d.take 8)), UInt64.ofNat (leNat ((d.drop 8).take 8)))

def addRxTx (drx dtx : UInt64) (d : Bytes) : Except Crash Bytes :=
  if drx = 0 ∧ dtx = 0 then .ok d
  else
    let (rx, tx) := parseRxTx d
    rxTx (rx + drx) (tx + dtx) d

/-! ## Sessions -/

/-- `uuid.UUID`; a session id is the text of one, which stands for it one to one. -/
structure UUID where
  bytes : Bytes
  length_eq : bytes.length = 16
deriving DecidableEq

/-- `uuid.FromBytes`, which gives the zero UUID with its error. -/
def UUID.fromBytes (k : Bytes) : UUID :=
  if h : k.length = 16 then ⟨k, h⟩ else ⟨List.replicate 16 0, rfl⟩

structure SessionData where
  installationID : GoString
  userID : GoString
  country : GoString

/-- `json.Marshal` and `json.Unmarshal` of a `SessionData`; the latter into a zero one, with what it
leaves there if it fails. -/
structure JSON where
  marshal : SessionData → Bytes
  unmarshal : Bytes → SessionData

/-- A text with `omitempty`. -/
def omitEmpty (name : String) (v : GoString) : List Reasoning.JSON.Member :=
  if v = [] then [] else [(.ofASCII name, .string v)]

def SessionData.members (d : SessionData) : List Reasoning.JSON.Member :=
  omitEmpty "i_id" d.installationID ++ omitEmpty "u_id" d.userID ++ omitEmpty "c" d.country

/-- The text under a name, or the empty one. -/
def textOf (name : String) (ms : List Reasoning.JSON.Member) : GoString :=
  match ms.lookup (.ofASCII name) with
  | some (.string v) => v
  | _ => []

/-- The texts of `encoding/json`, read where they are objects. -/
def encodingJSON : JSON where
  marshal d := Reasoning.JSON.Layout.compact.object d.members
  unmarshal bytes :=
    let ms := (Reasoning.JSON.readObject bytes).getD []
    ⟨textOf "i_id" ms, textOf "u_id" ms, textOf "c" ms⟩

/-- What JSON can carry comes back. -/
theorem unmarshal_marshal (d : SessionData) :
    encodingJSON.unmarshal (encodingJSON.marshal d) =
      ⟨UTF8.toValid d.installationID, UTF8.toValid d.userID, UTF8.toValid d.country⟩ := by
  obtain ⟨installationID, userID, country⟩ := d
  have hread := Reasoning.JSON.readObject_object .compact
    (SessionData.members ⟨installationID, userID, country⟩)
  dsimp only [encodingJSON]
  rw [hread, Option.getD_some]
  -- which members there are depends on which texts are empty
  cases installationID <;> cases userID <;> cases country <;> rfl

structure Session where
  sessionID : UUID
  data : SessionData

structure Report where
  session : Session
  createdNano : UInt64
  deltaRx : UInt64
  deltaTx : UInt64
  deltaTNano : UInt64

/-- `v[off:off+n]`. -/
def part (v : Bytes) (off n : Nat) : Except Crash Bytes :=
  if off + n ≤ v.length then .ok ((v.drop off).take n)
  else .error (.panic "slice bounds out of range")

def parse (json : JSON) (k v : Bytes) (nowNano : UInt64) : Except Crash Report := do
  let (rx, tx) := parseRxTx (← part v 0 16)
  let created := parseUint64 (← part v 16 8)
  let dataLen := (parseUint16 (← part v 24 2)).toNat
  let data := json.unmarshal (← part v 26 dataLen)
  return ⟨⟨.fromBytes k, data⟩, created, rx, tx, nowNano - created⟩

/-- The parts of the new slice are filled one after another. -/
def toValue (json : JSON) (session : Session) (drx dtx nowNano : UInt64) : Except Crash Bytes := do
  let data := json.marshal session.data
  let rxtx ← rxTx drx dtx (List.replicate 16 0)
  let start := setUint64 nowNano (List.replicate 8 0)
  let len := setUint16 (UInt16.ofNat data.length) (List.replicate 2 0)
  return rxtx ++ (start ++ (len ++ data))

/-! ## The service -/

/-- A call of `ReportStats`: `data` is what its `onData` would fill in, `nowNano` the clock when the
value is made. -/
structure Call where
  sessionID : UUID
  drx : UInt64
  dtx : UInt64
  data : SessionData
  nowNano : UInt64

/-- The mutator of `ReportStats`; its effect is whether it has called `onData`. -/
def Call.mutator (json : JSON) (call : Call) (v : Option Bytes) : Except Crash (Mutation Bool) :=
  let v := v.getD []
  if v.length = 0 then do
    let value ← toValue json ⟨call.sessionID, call.data⟩ call.drx call.dtx call.nowNano
    return ⟨v, true, .ok (.own value, true)⟩
  else do
    let d ← addRxTx call.drx call.dtx v
    return ⟨d, false, .ok (.part 0 d.length, false)⟩

def reportStats (hash : Bytes → UInt64) (json : JSON) (sessions : Cache) (junk : Nat → UInt8)
    (call : Call) : Except Crash (Option Bool × Outcome Unit × Cache) :=
  sessions.updateInPlace hash junk call.sessionID.bytes (call.mutator json)

/-- The reports passed to `onFlush`. -/
def onEvict (json : JSON) (nowNano : UInt64) : Items → Except Crash (List Report)
  | [] => .ok []
  | (k, v) :: items => do
      let report ← parse json k v nowNano
      let reports ← onEvict json nowNano items
      return report :: reports

/-- What the callbacks have been given. -/
structure Record where
  calls : List Call
  -- The reports of each step.
  flushes : List (List Report)
  -- Since the last flush: the sessions of the calls, and those for which `onData` was called.
  seen : List UUID
  asked : List UUID

structure State where
  sessions : Cache
  record : Record

def maxBytes : Int64 := (32 : Int64) <<< 20

def new : Except GoError State :=
  (XCache.new maxBytes true).map fun sessions ↦ ⟨sessions, ⟨[], [], [], []⟩⟩

inductive Event
  -- With what a new chunk holds, and the clock when evicted items are reported.
  | report (call : Call) (junk : Nat → UInt8) (nowNano : UInt64)
  | flush (nowNano : UInt64)

def exec (hash : Bytes → UInt64) (json : JSON) (s : State) : Event → Except Crash State
  | .report call junk nowNano => do
      let (asked, out, sessions) ← reportStats hash json s.sessions junk call
      let reports ← onEvict json nowNano (out.evicted.getD [])
      return ⟨sessions, {
        calls := s.record.calls ++ [call]
        flushes := s.record.flushes ++ [reports]
        seen := call.sessionID :: s.record.seen
        asked := if asked = some true then call.sessionID :: s.record.asked else s.record.asked }⟩
  | .flush nowNano => do
      let (out, sessions) ← s.sessions.reset
      let reports ← onEvict json nowNano (out.evicted.getD [])
      return ⟨sessions, {
        calls := s.record.calls
        flushes := s.record.flushes ++ [reports]
        seen := []
        asked := [] }⟩

def step (hash : Bytes → UInt64) (json : JSON) (s : State) (e : Event) : Option State :=
  (exec hash json s e).toOption

end CommonLib.XStats
