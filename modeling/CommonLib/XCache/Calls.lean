import CommonLib.XCache.Layout

/-!
# The methods of a bucket

Each method is called with the hash of its key.  Whatever its mutator does to the slice it is given,
a call rewrites at most the value under that hash, and then stores at most one entry under it.
-/

namespace CommonLib.XCache

open CommonLib.Reasoning CommonLib.XError

/-- A mutator that may write to the slice it is given, within its length. -/
structure Rewriter where
  run : Option Bytes → Mutation Unit
  length_slice : ∀ v, (run v).slice.length = (v.getD []).length

/-- One that only reads it. -/
def Mutator.rewriter (mutator : Mutator) : Rewriter where
  run v := ⟨v.getD [], (), mutator v⟩
  length_slice _ := rfl

inductive Call
  | set (k v : Bytes)
  | update (k : Bytes) (mutator : Rewriter)
  | getSet (k : Bytes) (provider : Except GoError Bytes)
  | get (k : Bytes)
  | del (k : Bytes)

def Call.key : Call → Bytes
  | .set k _ | .update k _ | .getSet k _ | .get k | .del k => k

/-- The value a call stores under its key if it succeeds, when the key has `cur`. -/
def Call.stored (cur : Option Bytes) : Call → Option Bytes
  | .set _ v => some v
  | .update _ mutator =>
      let mutation := mutator.run cur
      match mutation.reply with
      | .ok (v, true) => some (v.bytes (cur.map fun _ ↦ mutation.slice))
      | _ => none
  | .getSet _ provider =>
      match cur, provider with
      | none, .ok v => some v
      | _, _ => none
  | .get _ | .del _ => none

namespace Bucket

/-- What `Get` returns, if it returns a value. -/
def current (b : Bucket) (k : Bytes) (h : UInt64) : Option Bytes :=
  match b.get k h with
  | .ok (.ok v) => some v
  | _ => none

def call (b : Bucket) (junk : Nat → UInt8) (onEvict : Bool) (h : UInt64) :
    Call → Except Crash (Outcome (Option Bytes) × Bucket)
  | .set k v => (b.setLocked junk k (.own v) h onEvict).map fun (out, b) ↦
      (⟨out.result.map fun _ ↦ none, out.evicted⟩, b)
  | .update k mutator =>
      (b.updateInPlace junk k h (fun v ↦ .ok (mutator.run v)) onEvict).map fun (_, out, b) ↦
        (⟨out.result.map fun _ ↦ none, out.evicted⟩, b)
  | .getSet k provider => (b.getSet junk k h provider onEvict).map fun (out, b) ↦
      (⟨out.result.map some, out.evicted⟩, b)
  | .get k => (b.get k h).map fun r ↦ (⟨r.map some, none⟩, b)
  | .del _ => .ok (⟨.ok none, none⟩, b.del h)

end Bucket

/-! ## Rewriting a value -/

variable {t t' : Table} {b b' : Bucket} {h : UInt64} {k : Bytes}

/-- At most the value that `k` has under `h` has been rewritten. -/
structure Rewritten (t : Table) (b : Bucket) (h : UInt64) (k : Bytes) (t' : Table) (b' : Bucket) :
    Prop where
  m : b'.m = b.m
  idx : b'.idx = b.idx
  gen : b'.gen = b.gen
  count : b'.chunks.length = b.chunks.length
  other : ∀ h' ≠ h, t' h' = t h'
  self : t' h = t h ∨ ∃ val val', t h = some (k, val) ∧ t' h = some (k, val')
  laid : Laid t' b'

theorem Rewritten.refl (hl : Laid t b) (h : UInt64) (k : Bytes) : Rewritten t b h k t b :=
  ⟨rfl, rfl, rfl, rfl, fun _ _ ↦ rfl, .inl rfl, hl⟩

theorem Slice.source_congr {w : View} {bs : Bytes} (hlen : bs.length = w.bytes.length) (s : Slice) :
    s.source (some w) = s.source (some ⟨w.chunkIdx, w.off, bs⟩) := by
  cases s with
  | own bytes => rfl
  | part off len => rw [Slice.source, Slice.source, hlen]

/-- The slice a mutator is given, before and after it has written to it. -/
theorem Laid.mutate (hl : Laid t b) (h : UInt64) (k : Bytes) :
    ∃ view, b.getLocked k h = .ok (viewResult view) ∧
      ∀ bs : Bytes, bs.length = ((view.map (·.bytes)).getD []).length →
        Rewritten t b h k (view.elim t fun _ ↦ Function.update t h (some (k, bs)))
            (view.elim b fun w ↦ b.overwrite w bs) ∧
          ∀ s : Slice, (s.source view).Holds (view.elim b fun w ↦ b.overwrite w bs) k
            (s.bytes (view.map fun _ ↦ bs)) := by
  obtain hnone | ⟨v, val, hv, hlive, ht, hrec, -, hsome⟩ := hl.toInv.getLocked (h := h) k
  · refine ⟨none, hnone, fun bs _ ↦ ⟨.refl hl h k, fun s ↦ ?_⟩⟩
    obtain ⟨view, hget, -, hholds⟩ := hl.toInv.view k h
    rw [hnone] at hget
    cases view with
    | none => exact hholds s
    | some w => cases hget
  · refine ⟨_, hsome.trans (congrArg Except.ok (viewResult.eq_2 _).symm), fun bs hlen ↦ ?_⟩
    have hl₁ := hl.overwrite hv hlive ht hrec hlen
    obtain ⟨hm, hidx, hgen, hcount⟩ := overwrite_fields b
      ⟨posOf v / chunkSize, posOf v % chunkSize + 4 + k.length, val⟩ bs
    refine ⟨⟨hm, hidx, hgen, hcount, fun h' hne ↦ Function.update_of_ne hne ..,
      .inr ⟨val, bs, ht, Function.update_self ..⟩, hl₁⟩, fun s ↦ ?_⟩
    obtain ⟨view, hget₁, -, hholds⟩ := hl₁.toInv.view k h
    rw [hl.getLocked_overwrite hv hlive hrec hlen] at hget₁
    cases view with
    | none => cases hget₁
    | some w =>
        cases hget₁
        rw [Option.elim_some, Slice.source_congr hlen]
        exact hholds s

/-! ## What a call does -/

/-- The effect of a call under the hash `h` on the bucket and on its table. -/
inductive Called (t : Table) (b : Bucket) (h : UInt64) (r : Call) :
    Outcome (Option Bytes) → Table → Bucket → Prop
  | kept {out : Outcome (Option Bytes)} {t' : Table} {b' : Bucket} :
      r.stored (b.current r.key h) = none ∨ out.result.isOk = false →
      Rewritten t b h r.key t' b' → Called t b h r out t' b'
  | stored {out : Outcome (Option Bytes)} {t₁ : Table} {b₁ b' : Bucket} {val : Bytes} :
      r.stored (b.current r.key h) = some val → out.result.isOk = true →
      Rewritten t b h r.key t₁ b₁ → kvLen r.key val < chunkSize → Written b₁ b' h r.key val →
      Laid (Function.update t₁ h (some (r.key, val))) b' →
      Called t b h r out (Function.update t₁ h (some (r.key, val))) b'
  | deleted {out : Outcome (Option Bytes)} :
      r.stored (b.current r.key h) = none → Laid (Function.update t h none) (b.del h) →
      Called t b h r out (Function.update t h none) (b.del h)

theorem Called.laid {r : Call} {out : Outcome (Option Bytes)} (hc : Called t b h r out t' b') :
    Laid t' b' := by
  cases hc with
  | kept _ hrw => exact hrw.laid
  | stored _ _ _ _ _ hl => exact hl
  | deleted _ hl => exact hl

theorem Called.count {r : Call} {out : Outcome (Option Bytes)} (hc : Called t b h r out t' b') :
    b'.chunks.length = b.chunks.length := by
  cases hc with
  | kept _ hrw => exact hrw.count
  | stored _ _ hrw _ hw _ => exact hw.count.trans hrw.count
  | deleted _ _ => rfl

/-- What is new in the table has been stored, under the key of the call. -/
theorem Called.key {r : Call} {out : Outcome (Option Bytes)} (hc : Called t b h r out t' b')
    {h' : UInt64} {kv : Bytes × Bytes} (ht' : t' h' = some kv) :
    (∃ val, t h' = some (kv.1, val)) ∨ h' = h ∧ kv.1 = r.key ∧
      r.stored (b.current r.key h) = some kv.2 ∧ out.result.isOk = true := by
  have hrewritten {t₁ : Table} {b₁ : Bucket} (hrw : Rewritten t b h r.key t₁ b₁)
      (ht₁ : t₁ h' = some kv) : ∃ val, t h' = some (kv.1, val) := by
    by_cases hh : h' = h
    · subst hh
      obtain hsame | ⟨val, val', ht, hnew⟩ := hrw.self
      · exact ⟨kv.2, hsame.symm.trans ht₁⟩
      · cases ht₁.symm.trans hnew
        exact ⟨val, ht⟩
    · exact ⟨kv.2, (hrw.other h' hh).symm.trans ht₁⟩
  cases hc with
  | kept _ hrw => exact .inl (hrewritten hrw ht')
  | stored hval hok hrw _ _ _ =>
      by_cases hh : h' = h
      · rw [hh, Function.update_self] at ht'
        cases ht'
        exact .inr ⟨hh, rfl, hval, hok⟩
      · rw [Function.update_of_ne hh] at ht'
        exact .inl (hrewritten hrw ht')
  | deleted _ _ =>
      by_cases hh : h' = h
      · rw [hh, Function.update_self] at ht'
        cases ht'
      · rw [Function.update_of_ne hh] at ht'
        exact .inl ⟨kv.2, ht'⟩

theorem Bucket.current_eq {view : Option View} (hget : b.getLocked k h = .ok (viewResult view)) :
    b.current k h = view.map (·.bytes) := by
  rw [Bucket.current, Bucket.get, hget]
  cases view <;> rfl

/-- A call that stores what it has, after its key's value may have been rewritten. -/
theorem Rewritten.setLocked {t₁ : Table} {b₁ : Bucket} {r : Call} {val : Bytes} {s : Source}
    (hrw : Rewritten t b h r.key t₁ b₁) (junk : Nat → UInt8) (onEvict : Bool)
    (hstored : r.stored (b.current r.key h) = some val) (hholds : s.Holds b₁ r.key val)
    (x : Option Bytes) :
    ∃ out b' t', b₁.setLocked junk r.key s h onEvict = .ok (out, b') ∧
      Called t b h r ⟨out.result.map fun _ ↦ x, out.evicted⟩ t' b' := by
  obtain ⟨items, b', hset, hfits, hl, hw⟩ | ⟨e, hset, -⟩ :=
    hrw.laid.setLocked junk onEvict hholds h
  · exact ⟨_, b', _, hset, .stored hstored rfl hrw hfits hw hl⟩
  · exact ⟨_, b₁, t₁, hset, .kept (.inr rfl) hrw⟩

theorem Laid.call_update (hl : Laid t b) (junk : Nat → UInt8) (onEvict : Bool) (h : UInt64)
    (k : Bytes) (mutator : Rewriter) : ∃ out b' t', b.call junk onEvict h (.update k mutator) =
      .ok (out, b') ∧ Called t b h (.update k mutator) out t' b' := by
  obtain ⟨view, hget, hmutate⟩ := hl.mutate h k
  have hcur := Bucket.current_eq hget
  rw [Bucket.call, updateInPlace_eq hget]
  simp only [Except.bind]
  have hlen := mutator.length_slice (view.map (·.bytes))
  generalize hmutation : mutator.run (view.map (·.bytes)) = mutation at hlen
  obtain ⟨hrw, hholds⟩ := hmutate mutation.slice hlen
  cases hreply : mutation.reply with
  | error e =>
      exact ⟨_, _, _, rfl, .kept (.inr rfl) hrw⟩
  | ok reply =>
      obtain ⟨v, update⟩ := reply
      have hstored : (Call.update k mutator).stored (b.current k h) =
          if update then some (v.bytes (view.map fun _ ↦ mutation.slice)) else none := by
        simp only [Call.stored, hcur, hmutation, hreply, Option.map_map]
        cases update <;> rfl
      cases update with
      | false => exact ⟨_, _, _, rfl, .kept (.inl hstored) hrw⟩
      | true =>
          obtain ⟨out, b', t', hset, hcalled⟩ :=
            hrw.setLocked (r := .update k mutator) junk onEvict hstored (hholds v) none
          refine ⟨_, b', t', ?_, hcalled⟩
          dsimp only
          rw [show Bucket.setLocked _ junk k _ h onEvict = _ from hset]
          rfl

theorem Laid.call (hl : Laid t b) (junk : Nat → UInt8) (onEvict : Bool) (h : UInt64) (r : Call) :
    ∃ out b' t', b.call junk onEvict h r = .ok (out, b') ∧ Called t b h r out t' b' := by
  cases r with
  | set k v =>
      obtain ⟨out, b', t', hset, hcalled⟩ := (Rewritten.refl hl h k).setLocked (r := .set k v)
        (s := .own v) junk onEvict rfl rfl none
      refine ⟨_, b', t', ?_, hcalled⟩
      rw [Bucket.call, show b.setLocked junk k _ h onEvict = _ from hset]
      rfl
  | update k mutator => exact hl.call_update junk onEvict h k mutator
  | getSet k provider =>
      obtain ⟨view, hget, -⟩ := hl.mutate h k
      have hcur := Bucket.current_eq hget
      have hsame := Rewritten.refl hl h k
      rw [Bucket.call, getSet_eq hget]
      cases view with
      | some w =>
          refine ⟨_, b, t, rfl, .kept (.inl ?_) hsame⟩
          simp only [Call.stored, Call.key, hcur, Option.map_some]
      | none =>
          cases provider with
          | error e => exact ⟨_, b, t, rfl, .kept (.inr rfl) hsame⟩
          | ok v =>
              have hstored : (Call.getSet k (.ok v)).stored (b.current k h) = some v := by
                simp only [Call.stored, hcur, Option.map_none]
              obtain ⟨out, b', t', hset, hcalled⟩ := hsame.setLocked (r := .getSet k (.ok v))
                (s := .own v) junk onEvict hstored rfl (some v)
              refine ⟨_, b', t', ?_, hcalled⟩
              dsimp only
              rw [show b.setLocked junk k _ h onEvict = _ from hset]
              simp only [Except.map]
              cases out.result <;> rfl
  | get k =>
      obtain ⟨view, hget, -⟩ := hl.mutate h k
      refine ⟨⟨((viewResult view).map (·.bytes)).map some, none⟩, b, t, ?_,
        .kept (.inl rfl) (.refl hl h k)⟩
      rw [Bucket.call, Bucket.get, hget]
      rfl
  | del k => exact ⟨_, _, _, rfl, .deleted rfl (hl.del h)⟩

end CommonLib.XCache
