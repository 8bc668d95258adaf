import CommonLib.Reasoning.Crash
import CommonLib.Reasoning.GoMap
import CommonLib.Reasoning.Window
import CommonLib.XError.Error

/-!
# A bucket of the cache

Entries are written one after another into a ring of 64 KiB chunks.  A map takes the hash of a key
to the position of its entry and the generation of the ring in which it was written; an entry is
live while the write index has not gone past it in the next generation.  Slice expressions are
checked against the capacity of the chunk.
-/

namespace CommonLib.XCache

open CommonLib.Reasoning CommonLib.XError

abbrev Bytes := List UInt8

def chunkSize : Nat := 64 * 1024
def bucketSizeBits : UInt64 := 40
def maxGen : UInt64 := (1 <<< (64 - bucketSizeBits)) - 1
def maxBucketSize : UInt64 := 1 <<< bucketSizeBits
def maxKeyLen : Nat := 1 <<< 16

def errNoData : GoError := .new "no data"
def errCorruptedData : GoError := .new "corrupted data"
def errKeyLenTooBig : GoError := .new "key len too big > 65536"
def errValLenTooBig : GoError := .new "val len too big > 65536"
def errKeyValLenExceedsChunkSize : GoError := .new "key + val len exceeds chunk size"

/-- `Keys` and `Values`, which have one length. -/
abbrev Items := List (Bytes × Bytes)

/-- A slice over an array of `chunkSize` bytes. -/
structure Chunk where
  data : Nat → UInt8
  len : Nat

/-- Go would move a slice that outgrows its array to a larger one. -/
def Chunk.append (chunk : Chunk) (bs : Bytes) : Except Crash Chunk :=
  if chunk.len + bs.length ≤ chunkSize then
    .ok ⟨writeAt chunk.data chunk.len bs, chunk.len + bs.length⟩
  else .error (.panic "chunk outgrows its array")

/-- `chunk[off : off+n]`; a nil chunk has no capacity. -/
def slice (chunk : Option Chunk) (off n : Nat) : Except Crash Bytes :=
  match chunk with
  | some c =>
      if off + n ≤ chunkSize then .ok (window c.data off n)
      else .error (.panic "slice bounds out of range")
  | none => if off + n = 0 then .ok [] else .error (.panic "slice bounds out of range")

structure Bucket where
  chunks : List (Option Chunk)
  m : GoMap UInt64 UInt64
  idx : Nat
  gen : UInt64

/-! ## Reading -/

def genOf (v : UInt64) : UInt64 := v >>> bucketSizeBits
def posOf (v : UInt64) : Nat := (v &&& (maxBucketSize - 1)).toNat

def lenOf (hi lo : UInt8) : Nat := (hi.toUInt64 <<< 8 ||| lo.toUInt64).toNat

/-- Where an entry's key and value are. -/
structure Located where
  chunkIdx : Nat
  chunk : Option Chunk
  off : Nat
  keyLen : Nat
  valLen : Nat

/-- A value inside the ring, and what it holds. -/
structure View where
  chunkIdx : Nat
  off : Nat
  bytes : Bytes

namespace Bucket

def bGen (b : Bucket) : UInt64 := b.gen &&& maxGen

def isLive (b : Bucket) (v : UInt64) : Bool :=
  genOf v == b.bGen && decide (posOf v < b.idx) ||
    genOf v + 1 == b.bGen && decide (posOf v ≥ b.idx) ||
    genOf v == maxGen && b.bGen == 1 && decide (posOf v ≥ b.idx)

/-- The part that `readItem` and `getLocked` share. -/
def locate (b : Bucket) (v : UInt64) : Except Crash (Except GoError Located) :=
  if !b.isLive v then .ok (.error errNoData)
  else
    let chunkIdx := posOf v / chunkSize
    match b.chunks[chunkIdx]? with
    | none => .ok (.error errCorruptedData)
    | some chunk =>
        let off := posOf v % chunkSize
        if off + 4 ≥ chunkSize then .ok (.error errCorruptedData)
        else
          (slice chunk off 4).map fun kvLenBuf ↦
            let keyLen := lenOf (kvLenBuf.getD 0 0) (kvLenBuf.getD 1 0)
            let valLen := lenOf (kvLenBuf.getD 2 0) (kvLenBuf.getD 3 0)
            if off + 4 + keyLen + valLen ≥ chunkSize then .error errCorruptedData
            else .ok ⟨chunkIdx, chunk, off + 4, keyLen, valLen⟩

def readItem (b : Bucket) (v : UInt64) : Except Crash (Except GoError (Bytes × Bytes)) := do
  match ← b.locate v with
  | .error e => return .error e
  | .ok entry =>
      let key ← slice entry.chunk entry.off entry.keyLen
      let val ← slice entry.chunk (entry.off + entry.keyLen) entry.valLen
      return .ok (key, val)

/-- With `noCopy` the caller gets the view itself, otherwise a copy of its bytes. -/
def getLocked (b : Bucket) (k : Bytes) (h : UInt64) : Except Crash (Except GoError View) := do
  let v := (b.m.lookup h).getD 0
  if v = 0 then return .error errNoData
  match ← b.locate v with
  | .error e => return .error e
  | .ok entry =>
      let key ← slice entry.chunk entry.off entry.keyLen
      if k = key then
        let off := entry.off + entry.keyLen
        let val ← slice entry.chunk off entry.valLen
        return .ok ⟨entry.chunkIdx, off, val⟩
      return .error errNoData

/-- The items of those positions that can still be read. -/
def readItems (b : Bucket) : List UInt64 → Except Crash Items
  | [] => .ok []
  | v :: vs => do
      let item ← b.readItem v
      let rest ← b.readItems vs
      match item with
      | .error _ => return rest
      | .ok kv => return kv :: rest

/-! ## Writing -/

def keeps (b : Bucket) (v : UInt64) : Bool :=
  (genOf v + 1 == b.bGen || genOf v == maxGen && b.bGen == 1) && decide (posOf v ≥ b.idx) ||
    genOf v == b.bGen && decide (posOf v < b.idx)

/-- What `cleanLocked` hands to `onEvict`, if it calls it. -/
def evicted (b : Bucket) (onEvict : Bool) : Except Crash (Option Items) :=
  let bme := ((b.m.filter fun v ↦ !b.keeps v).entries.map (·.2)).dedup
  if onEvict ∧ bme ≠ [] then (b.readItems bme).map some else .ok none

def cleanLocked (b : Bucket) (onEvict : Bool) : Except Crash (Option Items × Bucket) :=
  let bm := b.m.filter b.keeps
  (b.evicted onEvict).map fun items ↦
    (items, if bm.size = 0 then b else { b with m := bm })

/-- Where the next entry goes: at the write index, at the start of the next chunk, or at the start
of the ring in a new generation. -/
structure Placement where
  start : Nat
  fresh : Bool
  wraps : Bool

def place (b : Bucket) (kvLen : Nat) : Placement :=
  let chunkIdxNew := (b.idx + kvLen) / chunkSize
  if chunkIdxNew > b.idx / chunkSize then
    if chunkIdxNew ≥ b.chunks.length then ⟨0, true, true⟩
    else ⟨chunkIdxNew * chunkSize, true, false⟩
  else ⟨b.idx, false, false⟩

def nextGen (b : Bucket) : UInt64 :=
  if (b.gen + 1) &&& maxGen = 0 then b.gen + 1 + 1 else b.gen + 1

end Bucket

def kvLenBuf (keyLen valLen : Nat) : Bytes :=
  [(UInt16.ofNat keyLen >>> 8).toUInt8, UInt8.ofNat keyLen,
    (UInt16.ofNat valLen >>> 8).toUInt8, UInt8.ofNat valLen]

/-- The value to store: bytes of its own, or a part of the ring, which is read when it is copied. -/
inductive Source
  | own (bytes : Bytes)
  | ring (chunkIdx off len : Nat)

def Source.length : Source → Nat
  | .own bytes => bytes.length
  | .ring _ _ len => len

def Source.read (chunks : List (Option Chunk)) : Source → Bytes
  | .own bytes => bytes
  | .ring chunkIdx off len =>
      match chunks[chunkIdx]? with
      | some (some chunk) => window chunk.data off len
      | _ => []

/-- The slice an entry is appended to; `junk` is what a chunk from `getChunk` holds. -/
def openChunk (slot : Option Chunk) (junk : Nat → UInt8) (fresh : Bool) : Chunk :=
  match slot with
  | none => ⟨junk, 0⟩
  | some c => if fresh then { c with len := 0 } else c

def writeEntry (chunks : List (Option Chunk)) (junk : Nat → UInt8) (p : Bucket.Placement)
    (k : Bytes) (v : Source) : Except Crash (List (Option Chunk)) := do
  let chunkIdx := p.start / chunkSize
  match chunks[chunkIdx]? with
  | none => .error .indexOutOfRange
  | some slot =>
      let chunk ← (openChunk slot junk p.fresh).append (kvLenBuf k.length v.length)
      let chunk ← chunk.append k
      let chunk ← chunk.append (v.read (chunks.set chunkIdx (some chunk)))
      return chunks.set chunkIdx (some chunk)

def packed (idx : Nat) (gen : UInt64) : UInt64 := UInt64.ofNat idx ||| gen <<< bucketSizeBits

/-- What an operation returns and what it hands to `onEvict`. -/
structure Outcome (α : Type) where
  result : Except GoError α
  evicted : Option Items

namespace Bucket

/-- `setLocked` once the lengths have been checked. -/
def store (b : Bucket) (junk : Nat → UInt8) (k : Bytes) (v : Source) (h : UInt64)
    (onEvict : Bool) : Except Crash (Option Items × Bucket) := do
  let kvLen := 4 + k.length + v.length
  let p := b.place kvLen
  let gen := if p.wraps then b.nextGen else b.gen
  let chunks ← writeEntry b.chunks junk p k v
  let b' : Bucket := ⟨chunks, b.m.insert h (packed p.start gen), p.start + kvLen, gen⟩
  if p.wraps then b'.cleanLocked onEvict else return (none, b')

def setLocked (b : Bucket) (junk : Nat → UInt8) (k : Bytes) (v : Source) (h : UInt64)
    (onEvict : Bool) : Except Crash (Outcome Unit × Bucket) :=
  if k.length ≥ maxKeyLen then .ok (⟨.error errKeyLenTooBig, none⟩, b)
  else if v.length ≥ maxKeyLen then .ok (⟨.error errValLenTooBig, none⟩, b)
  else if 4 + k.length + v.length ≥ chunkSize then
    .ok (⟨.error errKeyValLenExceedsChunkSize, none⟩, b)
  else (b.store junk k v h onEvict).map fun (items, b) ↦ (⟨.ok (), items⟩, b)

end Bucket

end CommonLib.XCache
