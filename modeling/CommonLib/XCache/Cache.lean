import CommonLib.XCache.Bucket

/-!
# The cache

A key's hash chooses one of 512 buckets; every method works on that bucket under its lock, and
`Reset` on all of them in turn.
-/

namespace CommonLib.XCache

open CommonLib.Reasoning CommonLib.XError

def bucketsCount : Nat := 512

/-- What a mutator returns: bytes of its own, or `v[off:off+len]` of the slice it was given, cut to
that slice. -/
inductive Slice
  | own (bytes : Bytes)
  | part (off len : Nat)

/-- A mutator that reads the slice it is given, nil if there is no value. -/
abbrev Mutator := Option Bytes → Except GoError (Slice × Bool)

def Slice.source (view : Option View) : Slice → Source
  | .own bytes => .own bytes
  | .part off len =>
      match view with
      | none => .own []
      | some w =>
          let off := min off w.bytes.length
          .ring w.chunkIdx (w.off + off) (min len (w.bytes.length - off))

namespace Bucket

def empty (n : Nat) : Bucket := ⟨List.replicate n none, ∅, 0, 1⟩

def init (maxBytes : UInt64) : Except GoError Bucket :=
  if maxBytes = 0 then .error (.new "maxBytes cannot be zero")
  else if maxBytes ≥ maxBucketSize then
    .error (.new s!"too big maxBytes={maxBytes}; should be smaller than {maxBucketSize}")
  else .ok (empty ((maxBytes.toNat + chunkSize - 1) / chunkSize))

/-- `Reset`, with the items it adds to `out`. -/
def reset (b : Bucket) (out : Bool) : Except Crash (Items × Bucket) := do
  let items ← if out then b.readItems (b.m.entries.map (·.2)) else .ok []
  return (items, empty b.chunks.length)

/-- `Get` of a copy. -/
def get (b : Bucket) (k : Bytes) (h : UInt64) : Except Crash (Except GoError Bytes) :=
  (b.getLocked k h).map fun r ↦ r.map (·.bytes)

def update (b : Bucket) (junk : Nat → UInt8) (k : Bytes) (h : UInt64) (mutator : Mutator)
    (onEvict : Bool) : Except Crash (Outcome Unit × Bucket) := do
  let r ← b.getLocked k h
  let view := r.toOption
  let err : Except GoError Unit := r.map fun _ ↦ ()
  if r.isOk ∨ err = .error errNoData then
    match mutator (view.map (·.bytes)) with
    | .error e => return (⟨.error e, none⟩, b)
    | .ok (v, true) => b.setLocked junk k (v.source view) h onEvict
    | .ok (_, false) => return (⟨err, none⟩, b)
  else return (⟨err, none⟩, b)

def getSet (b : Bucket) (junk : Nat → UInt8) (k : Bytes) (h : UInt64)
    (provider : Except GoError Bytes) (onEvict : Bool) :
    Except Crash (Outcome Bytes × Bucket) := do
  match ← b.getLocked k h with
  | .ok view => return (⟨.ok view.bytes, none⟩, b)
  | .error e =>
      if e = errNoData then
        match provider with
        | .error e => return (⟨.error e, none⟩, b)
        | .ok v =>
            let (out, b) ← b.setLocked junk k (.own v) h onEvict
            return (⟨out.result.map fun _ ↦ v, out.evicted⟩, b)
      else return (⟨.error e, none⟩, b)

def del (b : Bucket) (h : UInt64) : Bucket := { b with m := b.m.erase h }

end Bucket

structure Cache where
  buckets : Fin bucketsCount → Bucket
  -- Whether there is a callback.
  onEvict : Bool

/-- `New`; `maxBytes` is an `int`. -/
def new (maxBytes : Int64) (onEvict : Bool) : Except GoError Cache :=
  if maxBytes ≤ 0 then .error (.new s!"maxBytes must be greater than 0; got {maxBytes}")
  else
    let maxBucketBytes := ((maxBytes + Int64.ofNat bucketsCount - 1) /
      Int64.ofNat bucketsCount).toUInt64
    (Bucket.init maxBucketBytes).map fun b ↦ ⟨fun _ ↦ b, onEvict⟩

inductive Op
  | set (k v : Bytes)
  | update (k : Bytes) (mutator : Mutator)
  | getSet (k : Bytes) (provider : Except GoError Bytes)
  | get (k : Bytes)
  | del (k : Bytes)
  | reset

namespace Cache

variable (hash : Bytes → UInt64)

def bucketIdx (k : Bytes) : Fin bucketsCount :=
  ⟨(hash k).toNat % bucketsCount, Nat.mod_lt _ (by decide)⟩

def setBucket (c : Cache) (i : Fin bucketsCount) (b : Bucket) : Cache :=
  { c with buckets := Function.update c.buckets i b }

def get (c : Cache) (k : Bytes) : Except Crash (Except GoError Bytes) :=
  ((c.buckets (bucketIdx hash k)).getLocked k (hash k)).map fun r ↦ r.map (·.bytes)

/-- The buckets in order, with the items of all of them. -/
def resetBuckets (c : Cache) : List (Fin bucketsCount) → Except Crash (Items × Cache)
  | [] => .ok ([], c)
  | i :: is => do
      let (items, b) ← (c.buckets i).reset c.onEvict
      let (rest, c) ← resetBuckets (c.setBucket i b) is
      return (items ++ rest, c)

def reset (c : Cache) : Except Crash (Outcome Unit × Cache) := do
  let (items, c) ← c.resetBuckets (List.finRange bucketsCount)
  return (⟨.ok (), if c.onEvict ∧ items ≠ [] then some items else none⟩, c)

/-- One operation.  Results are bytes or nothing; `junk` is what a new chunk holds. -/
def exec (c : Cache) (junk : Nat → UInt8) : Op → Except Crash (Outcome (Option Bytes) × Cache)
  | .set k v => do
      let i := bucketIdx hash k
      let (out, b) ← (c.buckets i).setLocked junk k (.own v) (hash k) c.onEvict
      return (⟨out.result.map fun _ ↦ none, out.evicted⟩, c.setBucket i b)
  | .update k mutator => do
      let i := bucketIdx hash k
      let (out, b) ← (c.buckets i).update junk k (hash k) mutator c.onEvict
      return (⟨out.result.map fun _ ↦ none, out.evicted⟩, c.setBucket i b)
  | .getSet k provider => do
      let i := bucketIdx hash k
      let (out, b) ← (c.buckets i).getSet junk k (hash k) provider c.onEvict
      return (⟨out.result.map some, out.evicted⟩, c.setBucket i b)
  | .get k => (c.get hash k).map fun r ↦ (⟨r.map some, none⟩, c)
  | .del k =>
      let i := bucketIdx hash k
      .ok (⟨.ok none, none⟩, c.setBucket i ((c.buckets i).del (hash k)))
  | .reset => c.reset.map fun (out, c) ↦ (⟨out.result.map fun _ ↦ none, out.evicted⟩, c)

end Cache

end CommonLib.XCache
