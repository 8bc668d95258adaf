import CommonLib.Reasoning.Run
import CommonLib.XCache.Writes

/-!
# What the cache returns

Along any sequence of operations the last value written under each key is remembered on the side.
`Get` returns that value or no data, and no operation runs out of the bounds of a chunk.
-/

namespace CommonLib.XCache

open CommonLib.Reasoning CommonLib.XError

variable {hash : Bytes → UInt64}

/-! ## The last write -/

def Slice.bytes (cur : Option Bytes) : Slice → Bytes
  | .own bytes => bytes
  | .part off len => ((cur.getD []).drop off).take len

/-- What `Get` returns, if it returns a value. -/
def Cache.current (hash : Bytes → UInt64) (c : Cache) (k : Bytes) : Option Bytes :=
  match c.get hash k with
  | .ok (.ok v) => some v
  | _ => none

/-- The key and the value an operation writes if it succeeds, when `cur` is what the cache has. -/
def Op.written (cur : Bytes → Option Bytes) : Op → Option (Bytes × Bytes)
  | .set k v => some (k, v)
  | .update k mutator =>
      match mutator (cur k) with
      | .ok (v, true) => some (k, v.bytes (cur k))
      | _ => none
  | .getSet k provider =>
      match cur k, provider with
      | none, .ok v => some (k, v)
      | _, _ => none
  | .get _ | .del _ | .reset => none

/-- The last successful writes after an operation; a deleted key has none. -/
def lastWrite (cur last : Bytes → Option Bytes) (op : Op) (ok : Bool) : Bytes → Option Bytes :=
  match op with
  | .reset => fun _ ↦ none
  | .del k => Function.update last k none
  | op =>
      match op.written cur with
      | some (k, v) => if ok then Function.update last k (some v) else last
      | none => last

structure History where
  cache : Cache
  last : Bytes → Option Bytes

def History.exec (hash : Bytes → UInt64) (op : (Nat → UInt8) × Op) (s : History) :
    Except Crash (Outcome (Option Bytes) × History) :=
  (s.cache.exec hash op.1 op.2).map fun (out, c) ↦
    (out, ⟨c, lastWrite (s.cache.current hash) s.last op.2 out.result.isOk⟩)

/-! ## The invariant of all buckets -/

/-- Bucket `i` may hold `val` under `k`. -/
def Stored (hash : Bytes → UInt64) (last : Bytes → Option Bytes) (i : Fin bucketsCount)
    (h : UInt64) (k val : Bytes) : Prop :=
  hash k = h ∧ Cache.bucketIdx hash k = i ∧ last k = some val

def AllInv (hash : Bytes → UInt64) (c : Cache) (last : Bytes → Option Bytes) : Prop :=
  ∀ i, Inv (Stored hash last i) (c.buckets i)

/-- After a write to `k` the other hashes have what they had. -/
theorem Stored.write {last : Bytes → Option Bytes} {i : Fin bucketsCount} {h : UInt64}
    {k k' val : Bytes} (val' : Option Bytes) (hne : h ≠ hash k') (hs : Stored hash last i h k val) :
    Stored hash (Function.update last k' val') i h k val := by
  obtain ⟨hh, hi, hl⟩ := hs
  refine ⟨hh, hi, ?_⟩
  rw [Function.update_of_ne _, hl]
  rintro rfl
  exact hne hh.symm

@[simp] theorem setBucket_same (c : Cache) (i : Fin bucketsCount) (b : Bucket) :
    (c.setBucket i b).buckets i = b := Function.update_self ..

theorem setBucket_other (c : Cache) {i j : Fin bucketsCount} (h : j ≠ i) (b : Bucket) :
    (c.setBucket i b).buckets j = c.buckets j := Function.update_of_ne h ..

theorem setBucket_self (c : Cache) (i : Fin bucketsCount) : c.setBucket i (c.buckets i) = c := by
  rw [Cache.setBucket, Function.update_eq_self]

theorem AllInv.setBucket {c : Cache} {last : Bytes → Option Bytes} (hinv : AllInv hash c last)
    (k : Bytes) (val : Option Bytes) {b : Bucket}
    (hb : Inv (Stored hash (Function.update last k val) (Cache.bucketIdx hash k)) b) :
    AllInv hash (c.setBucket (Cache.bucketIdx hash k) b) (Function.update last k val) := by
  intro j
  by_cases hj : j = Cache.bucketIdx hash k
  · subst hj
    rw [setBucket_same]
    exact hb
  · rw [setBucket_other c hj]
    -- what belongs to another bucket has not been written
    refine (hinv j).restrict (m := (c.buckets j).m) (fun _ _ hv ↦ hv) fun h v k' val' _ hs ↦ ?_
    obtain ⟨hh, hi, hl⟩ := hs
    refine ⟨hh, hi, ?_⟩
    rw [Function.update_of_ne _, hl]
    rintro rfl
    exact hj hi.symm

/-! ## What an operation does -/

/-- The item an entry stands for, if it can be read. -/
def itemOf (b : Bucket) (v : UInt64) : Option (Bytes × Bytes) :=
  match b.readItem v with
  | .ok (.ok kv) => some kv
  | _ => none

def liveItems (b : Bucket) : Items := b.m.entries.filterMap fun e ↦ itemOf b e.2

/-- The effect of one operation on the cache. -/
inductive Effect (hash : Bytes → UInt64) (c : Cache) (last : Bytes → Option Bytes) :
    Op → Outcome (Option Bytes) → Cache → Prop
  | same {op : Op} {out : Outcome (Option Bytes)} : out.evicted = none →
      lastWrite (c.current hash) last op out.result.isOk = last →
      (∀ k val, op.written (c.current hash) = some (k, val) → chunkSize ≤ kvLen k val) →
      Effect hash c last op out c
  | write {op : Op} {out : Outcome (Option Bytes)} {k val : Bytes} {b : Bucket} :
      op.written (c.current hash) = some (k, val) → out.result.isOk = true →
      out.evicted.getD [] = [] → kvLen k val < chunkSize →
      Inv (Stored hash (Function.update last k (some val)) (Cache.bucketIdx hash k)) b →
      Written (c.buckets (Cache.bucketIdx hash k)) b (hash k) k val →
      Effect hash c last op out (c.setBucket (Cache.bucketIdx hash k) b)
  | del (k : Bytes) : Effect hash c last (.del k) ⟨.ok none, none⟩
      (c.setBucket (Cache.bucketIdx hash k)
        ((c.buckets (Cache.bucketIdx hash k)).del (hash k)))
  | reset {items : Items} :
      items = (List.finRange bucketsCount).flatMap
        (fun i ↦ if c.onEvict then liveItems (c.buckets i) else []) →
      Effect hash c last .reset ⟨.ok none, if c.onEvict ∧ items ≠ [] then some items else none⟩
        ⟨fun i ↦ .empty (c.buckets i).chunks.length, c.onEvict⟩

theorem lastWrite_written {cur last : Bytes → Option Bytes} {op : Op} {k val : Bytes}
    (h : op.written cur = some (k, val)) :
    lastWrite cur last op true = Function.update last k (some val) := by
  cases op <;> simp_all [lastWrite, Op.written]

theorem Effect.inv {c c' : Cache} {last : Bytes → Option Bytes} {op : Op}
    {out : Outcome (Option Bytes)} (hinv : AllInv hash c last)
    (h : Effect hash c last op out c') :
    AllInv hash c' (lastWrite (c.current hash) last op out.result.isOk) := by
  cases h with
  | same _ hlast _ =>
      rw [hlast]
      exact hinv
  | write hwritten hok _ _ hb _ =>
      rw [hok, lastWrite_written hwritten]
      exact hinv.setBucket _ _ hb
  | del k =>
      refine hinv.setBucket k none ?_
      -- `Del` removes by hash, whatever key is stored under it
      have hlookup : ∀ h v, ((c.buckets (Cache.bucketIdx hash k)).m.erase (hash k)).lookup h =
          some v → h ≠ hash k ∧ (c.buckets (Cache.bucketIdx hash k)).m.lookup h = some v := by
        intro h v hv
        by_cases hh : h = hash k
        · rw [hh, AList.lookup_erase] at hv
          cases hv
        · rw [AList.lookup_erase_ne hh] at hv
          exact ⟨hh, hv⟩
      exact (hinv _).restrict (fun h v hv ↦ (hlookup h v hv).2)
        fun h v _ _ hv hs ↦ hs.write none (hlookup h v hv).1
  | reset _ => exact fun i ↦ empty_inv (hinv i).shape.count_pos (hinv i).shape.count_le

/-! ## What a key has -/

/-- What `getLocked` returns: no data, or a value in the ring. -/
def viewResult : Option View → Except GoError View
  | none => .error errNoData
  | some view => .ok view

variable {P : UInt64 → Bytes → Bytes → Prop} {b : Bucket}

theorem Inv.view (hinv : Inv P b) (k : Bytes) (h : UInt64) :
    ∃ view, b.getLocked k h = .ok (viewResult view) ∧ (∀ w ∈ view, P h k w.bytes) ∧
      ∀ s : Slice, (s.source view).Holds b k (s.bytes (view.map (·.bytes))) := by
  rcases hinv.getLocked k with hnone | ⟨v, val, -, -, hP, hrec, hend, hsome⟩
  · refine ⟨none, hnone, nofun, fun s ↦ ?_⟩
    cases s with
    | own bytes => rfl
    | part off len =>
        change ([] : Bytes) = ([].drop off).take len
        rw [List.drop_nil, List.take_nil]
  · refine ⟨_, hsome.trans (congrArg Except.ok (viewResult.eq_2 _).symm), ?_, fun s ↦ ?_⟩
    · rintro w ⟨⟩
      exact hP
    · cases s with
      | own bytes => rfl
      | part off len =>
          refine ⟨posOf v, val, min off val.length, hrec, hend, rfl, rfl, by dsimp only; omega, ?_⟩
          change (val.drop off).take len = _
          rcases Nat.le_total off val.length with hle | hle
          · rw [Nat.min_eq_left hle, List.take_eq_take_min, List.length_drop]
          · rw [Nat.min_eq_right hle, List.drop_of_length_le hle, List.drop_length, List.take_nil,
              List.take_nil]

theorem update_eq {view : Option View} {k : Bytes} {h : UInt64}
    (hget : b.getLocked k h = .ok (viewResult view)) (junk : Nat → UInt8) (mutator : Mutator)
    (onEvict : Bool) : b.update junk k h mutator onEvict =
      match mutator (view.map (·.bytes)) with
      | .error e => .ok (⟨.error e, none⟩, b)
      | .ok (v, true) => b.setLocked junk k (v.source view) h onEvict
      | .ok (_, false) => .ok (⟨(viewResult view).map fun _ ↦ (), none⟩, b) := by
  unfold Bucket.update
  simp only [hget, bind, Except.bind]
  cases view with
  | none => rfl
  | some w => rfl

theorem getSet_eq {view : Option View} {k : Bytes} {h : UInt64}
    (hget : b.getLocked k h = .ok (viewResult view)) (junk : Nat → UInt8)
    (provider : Except GoError Bytes) (onEvict : Bool) :
    b.getSet junk k h provider onEvict =
      match view, provider with
      | some w, _ => .ok (⟨.ok w.bytes, none⟩, b)
      | none, .error e => .ok (⟨.error e, none⟩, b)
      | none, .ok v => (b.setLocked junk k (.own v) h onEvict).map fun (out, b) ↦
          (⟨out.result.map fun _ ↦ v, out.evicted⟩, b) := by
  unfold Bucket.getSet
  simp only [hget, bind, Except.bind]
  cases view with
  | none => cases provider <;> rfl
  | some w => rfl

theorem current_eq {c : Cache} {k : Bytes} {view : Option View}
    (hget : (c.buckets (Cache.bucketIdx hash k)).getLocked k (hash k) = .ok (viewResult view)) :
    c.current hash k = view.map (·.bytes) := by
  rw [Cache.current, Cache.get, hget]
  cases view <;> rfl

theorem lastWrite_failed {cur last : Bytes → Option Bytes} {k : Bytes} {op : Op}
    (h : (∃ v, op = .set k v) ∨ (∃ f, op = .update k f) ∨ ∃ p, op = .getSet k p) :
    lastWrite cur last op false = last := by
  rcases h with ⟨v, rfl⟩ | ⟨f, rfl⟩ | ⟨p, rfl⟩
  · rfl
  · unfold lastWrite
    dsimp only
    split <;> rfl
  · unfold lastWrite
    dsimp only
    split <;> rfl

/-- A write to the bucket of `k`, seen from the cache. -/
theorem AllInv.setLocked {c : Cache} {last : Bytes → Option Bytes} (hinv : AllInv hash c last)
    (junk : Nat → UInt8) {k val : Bytes} {v : Source}
    (hholds : v.Holds (c.buckets (Cache.bucketIdx hash k)) k val) :
    (∃ items b', (c.buckets (Cache.bucketIdx hash k)).setLocked junk k v (hash k) c.onEvict =
        .ok (⟨.ok (), items⟩, b') ∧ kvLen k val < chunkSize ∧ items.getD [] = [] ∧
      Inv (Stored hash (Function.update last k (some val)) (Cache.bucketIdx hash k)) b' ∧
      Written (c.buckets (Cache.bucketIdx hash k)) b' (hash k) k val) ∨
    ∃ e, (c.buckets (Cache.bucketIdx hash k)).setLocked junk k v (hash k) c.onEvict =
        .ok (⟨.error e, none⟩, c.buckets (Cache.bucketIdx hash k)) ∧ chunkSize ≤ kvLen k val :=
  (hinv _).setLocked junk c.onEvict hholds (fun _ hne _ _ hs ↦ hs.write _ hne)
    ⟨rfl, rfl, Function.update_self ..⟩

/-- An operation that writes: `x` is what it returns if the write succeeds. -/
theorem AllInv.write_effect {c : Cache} {last : Bytes → Option Bytes} (hinv : AllInv hash c last)
    (junk : Nat → UInt8) {k val : Bytes} {v : Source} (op : Op) (x : Option Bytes)
    (hwrites : op.written (c.current hash) = some (k, val))
    (hfailed : lastWrite (c.current hash) last op false = last)
    (hholds : v.Holds (c.buckets (Cache.bucketIdx hash k)) k val) :
    ∃ out b, (c.buckets (Cache.bucketIdx hash k)).setLocked junk k v (hash k) c.onEvict =
        .ok (out, b) ∧
      Effect hash c last op ⟨out.result.map fun _ ↦ x, out.evicted⟩
        (c.setBucket (Cache.bucketIdx hash k) b) := by
  rcases hinv.setLocked junk hholds with
    ⟨items, b, hset, hfits, hnil, hb, hwritten⟩ | ⟨e, hset, hlarge⟩
  · exact ⟨⟨.ok (), items⟩, b, hset, .write hwrites rfl hnil hfits hb hwritten⟩
  · -- the entry is too large, and nothing changes
    refine ⟨⟨.error e, none⟩, _, hset, ?_⟩
    rw [setBucket_self]
    refine .same rfl hfailed fun k' val' hwrites' ↦ ?_
    rw [hwrites] at hwrites'
    cases hwrites'
    exact hlarge

theorem set_effect {c : Cache} {last : Bytes → Option Bytes} (hinv : AllInv hash c last)
    (junk : Nat → UInt8) (k v : Bytes) :
    ∃ out c', c.exec hash junk (.set k v) = .ok (out, c') ∧
      Effect hash c last (.set k v) out c' := by
  obtain ⟨out, b, hset, heffect⟩ := hinv.write_effect junk (v := .own v) (.set k v) none rfl
    (lastWrite_failed (.inl ⟨v, rfl⟩)) rfl
  refine ⟨_, _, ?_, heffect⟩
  simp only [Cache.exec, hset, bind, Except.bind]
  rfl

theorem update_effect {c : Cache} {last : Bytes → Option Bytes} (hinv : AllInv hash c last)
    (junk : Nat → UInt8) (k : Bytes) (mutator : Mutator) :
    ∃ out c', c.exec hash junk (.update k mutator) = .ok (out, c') ∧
      Effect hash c last (.update k mutator) out c' := by
  obtain ⟨view, hget, -, hholds⟩ := (hinv (Cache.bucketIdx hash k)).view k (hash k)
  have hcur := current_eq hget
  have hfailed : lastWrite (c.current hash) last (.update k mutator) false = last :=
    lastWrite_failed (.inr (.inl ⟨mutator, rfl⟩))
  have hexec : c.exec hash junk (.update k mutator) =
      ((c.buckets (Cache.bucketIdx hash k)).update junk k (hash k) mutator c.onEvict).map
        fun (out, b) ↦ (⟨out.result.map fun _ ↦ none, out.evicted⟩,
          c.setBucket (Cache.bucketIdx hash k) b) := rfl
  rw [hexec, update_eq hget]
  cases hmut : mutator (view.map (·.bytes)) with
  | error e =>
      refine ⟨⟨.error e, none⟩, c, ?_, .same rfl hfailed fun _ _ hwrites ↦ ?_⟩
      · simp only [Except.map, setBucket_self]
      · simp only [Op.written, hcur, hmut, reduceCtorEq] at hwrites
  | ok r =>
      obtain ⟨v, update⟩ := r
      cases update with
      | false =>
          refine ⟨⟨((viewResult view).map fun _ ↦ ()).map fun _ ↦ none, none⟩, c, ?_,
            .same rfl ?_ fun _ _ hwrites ↦ ?_⟩
          · simp only [Except.map, setBucket_self]
          · simp only [lastWrite, Op.written, hcur, hmut]
          · simp only [Op.written, hcur, hmut, reduceCtorEq] at hwrites
      | true =>
          have hwrites : Op.written (c.current hash) (.update k mutator) =
              some (k, v.bytes (view.map (·.bytes))) := by
            simp only [Op.written, hcur, hmut]
          obtain ⟨out, b, hset, heffect⟩ :=
            hinv.write_effect junk (.update k mutator) none hwrites hfailed (hholds v)
          refine ⟨_, _, ?_, heffect⟩
          simp only [hset, Except.map]

theorem getSet_effect {c : Cache} {last : Bytes → Option Bytes} (hinv : AllInv hash c last)
    (junk : Nat → UInt8) (k : Bytes) (provider : Except GoError Bytes) :
    ∃ out c', c.exec hash junk (.getSet k provider) = .ok (out, c') ∧
      Effect hash c last (.getSet k provider) out c' := by
  obtain ⟨view, hget, -, -⟩ := (hinv (Cache.bucketIdx hash k)).view k (hash k)
  have hcur := current_eq hget
  have hfailed : lastWrite (c.current hash) last (.getSet k provider) false = last :=
    lastWrite_failed (.inr (.inr ⟨provider, rfl⟩))
  have hexec : c.exec hash junk (.getSet k provider) =
      ((c.buckets (Cache.bucketIdx hash k)).getSet junk k (hash k) provider c.onEvict).map
        fun r ↦ (⟨r.1.result.map some, r.1.evicted⟩,
          c.setBucket (Cache.bucketIdx hash k) r.2) := rfl
  rw [hexec, getSet_eq hget]
  cases view with
  | some w =>
      refine ⟨⟨.ok (some w.bytes), none⟩, c, ?_, .same rfl ?_ fun _ _ hwrites ↦ ?_⟩
      · simp only [Except.map, setBucket_self]
      · simp only [lastWrite, Op.written, hcur, Option.map_some]
      · simp only [Op.written, hcur, Option.map_some, reduceCtorEq] at hwrites
  | none =>
      cases provider with
      | error e =>
          refine ⟨⟨.error e, none⟩, c, ?_, .same rfl hfailed fun _ _ hwrites ↦ ?_⟩
          · simp only [Except.map, setBucket_self]
          · simp only [Op.written, hcur, Option.map_none, reduceCtorEq] at hwrites
      | ok v =>
          have hwrites : Op.written (c.current hash) (.getSet k (.ok v)) = some (k, v) := by
            simp only [Op.written, hcur, Option.map_none]
          obtain ⟨out, b, hset, heffect⟩ := hinv.write_effect junk (v := .own v)
            (.getSet k (.ok v)) (some v) hwrites hfailed rfl
          refine ⟨_, _, ?_, heffect⟩
          simp only [hset, Except.map]
          cases out.result <;> rfl

theorem Inv.readItem_ok (hinv : Inv P b) {h v : UInt64} (hv : b.m.lookup h = some v) :
    ∃ r, b.readItem v = .ok r := by
  cases hlive : b.isLive v with
  | false => exact ⟨_, readItem_of_not_live hlive⟩
  | true =>
      obtain ⟨k, val, -, hrec, -⟩ := (hinv.entry h v hv).record_of_live hlive
      exact ⟨_, readItem_of_record hlive hrec⟩

theorem readItems_eq {vs : List UInt64} (h : ∀ v ∈ vs, ∃ r, b.readItem v = .ok r) :
    b.readItems vs = .ok (vs.filterMap (itemOf b)) := by
  induction vs with
  | nil => rfl
  | cons v vs ih =>
      obtain ⟨r, hr⟩ := h v List.mem_cons_self
      have hitem : itemOf b v = r.toOption := by
        rw [itemOf, hr]
        cases r <;> rfl
      rw [Bucket.readItems, hr, ih fun v' hv ↦ h v' (List.mem_cons_of_mem v hv),
        List.filterMap_cons, hitem]
      cases r <;> rfl

theorem Inv.reset (hinv : Inv P b) (out : Bool) : b.reset out =
    .ok (if out then liveItems b else [], Bucket.empty b.chunks.length) := by
  cases out with
  | false => rfl
  | true =>
      have hall : ∀ v ∈ b.m.entries.map (·.2), ∃ r, b.readItem v = .ok r := by
        intro v hv
        obtain ⟨e, he, rfl⟩ := List.mem_map.mp hv
        exact hinv.readItem_ok (AList.mem_lookup_iff.mpr he)
      rw [Bucket.reset, if_pos rfl, readItems_eq hall, List.filterMap_map]
      rfl

theorem resetBuckets_eq {c : Cache} {is : List (Fin bucketsCount)} (hnodup : is.Nodup)
    (hinv : ∀ i ∈ is, ∃ P, Inv P (c.buckets i)) :
    c.resetBuckets is = .ok (is.flatMap fun i ↦ if c.onEvict then liveItems (c.buckets i) else [],
      ⟨fun i ↦ if i ∈ is then .empty (c.buckets i).chunks.length else c.buckets i, c.onEvict⟩) := by
  induction is generalizing c with
  | nil => rfl
  | cons i is ih =>
      obtain ⟨hnotin, hnodup⟩ := List.nodup_cons.mp hnodup
      obtain ⟨P, hi⟩ := hinv i List.mem_cons_self
      have hother {j : Fin bucketsCount} (hj : j ∈ is) (b : Bucket) :
          (c.setBucket i b).buckets j = c.buckets j := by
        apply setBucket_other
        rintro rfl
        exact hnotin hj
      have hrest := ih (c := c.setBucket i (.empty (c.buckets i).chunks.length)) hnodup
        fun j hj ↦ by
          rw [hother hj]
          exact hinv j (List.mem_cons_of_mem i hj)
      rw [Cache.resetBuckets, hi.reset]
      simp only [bind, Except.bind, hrest, pure, Except.pure, Except.ok.injEq, Prod.mk.injEq,
        List.flatMap_cons]
      refine ⟨?_, ?_⟩
      · congr 1
        apply List.flatMap_congr
        intro j hj
        rw [hother hj]
        rfl
      · congr 1
        funext j
        by_cases hj : j = i
        · subst hj
          simp [hnotin]
        · simp [hj, setBucket_other c hj]

theorem reset_eq {c : Cache} {items : Items} (hinv : ∀ i, ∃ P, Inv P (c.buckets i))
    (hitems : (List.finRange bucketsCount).flatMap
      (fun i ↦ if c.onEvict then liveItems (c.buckets i) else []) = items) :
    c.reset = .ok (⟨.ok (), if c.onEvict ∧ items ≠ [] then some items else none⟩,
      ⟨fun i ↦ .empty (c.buckets i).chunks.length, c.onEvict⟩) := by
  rw [Cache.reset, resetBuckets_eq (List.nodup_finRange _) fun i _ ↦ hinv i, hitems]
  simp only [List.mem_finRange, if_true, bind, Except.bind, pure, Except.pure]

theorem exec_effect {c : Cache} {last : Bytes → Option Bytes} (hinv : AllInv hash c last)
    (junk : Nat → UInt8) (op : Op) :
    ∃ out c', c.exec hash junk op = .ok (out, c') ∧ Effect hash c last op out c' := by
  cases op with
  | set k v => exact set_effect hinv junk k v
  | update k mutator => exact update_effect hinv junk k mutator
  | getSet k provider => exact getSet_effect hinv junk k provider
  | get k =>
      obtain ⟨view, hget, -, -⟩ := (hinv (Cache.bucketIdx hash k)).view k (hash k)
      refine ⟨⟨((viewResult view).map (·.bytes)).map some, none⟩, c, ?_, .same rfl rfl nofun⟩
      rw [Cache.exec, Cache.get, hget]
      rfl
  | del k => exact ⟨_, _, rfl, .del k⟩
  | reset =>
      refine ⟨_, _, ?_, .reset rfl⟩
      rw [Cache.exec, reset_eq (fun i ↦ ⟨_, hinv i⟩) rfl]
      rfl

/-! ## Runs -/

theorem init_eq {maxBytes : UInt64} {b : Bucket} (hinit : Bucket.init maxBytes = .ok b) :
    ∃ n, 0 < n ∧ n ≤ 2 ^ 24 ∧ b = .empty n := by
  unfold Bucket.init at hinit
  split at hinit
  · cases hinit
  split at hinit
  · cases hinit
  · rename_i hzero hbig
    cases hinit
    have hpos : maxBytes.toNat ≠ 0 := fun h0 ↦ hzero (UInt64.toNat_inj.mp h0)
    have hlt : maxBytes.toNat < 2 ^ 40 := by
      rw [UInt64.not_le, UInt64.lt_iff_toNat_lt] at hbig
      exact hbig
    refine ⟨_, ?_, ?_, rfl⟩
    · unfold chunkSize
      omega
    · unfold chunkSize
      omega

theorem new_eq {maxBytes : Int64} {onEvict : Bool} {c : Cache}
    (hnew : new maxBytes onEvict = .ok c) :
    ∃ n, 0 < n ∧ n ≤ 2 ^ 24 ∧ c = ⟨fun _ ↦ .empty n, onEvict⟩ := by
  unfold new at hnew
  split at hnew
  · cases hnew
  · dsimp only at hnew
    generalize ((maxBytes + Int64.ofNat bucketsCount - 1) /
      Int64.ofNat bucketsCount).toUInt64 = maxBucketBytes at hnew
    cases hinit : Bucket.init maxBucketBytes with
    | error e =>
        rw [hinit] at hnew
        cases hnew
    | ok b =>
        rw [hinit] at hnew
        cases hnew
        obtain ⟨n, hpos, hle, rfl⟩ := init_eq hinit
        exact ⟨n, hpos, hle, rfl⟩

theorem new_inv {maxBytes : Int64} {onEvict : Bool} {c : Cache}
    (hnew : new maxBytes onEvict = .ok c) : AllInv hash c fun _ ↦ none := by
  obtain ⟨n, hpos, hle, rfl⟩ := new_eq hnew
  exact fun i ↦ empty_inv hpos hle

theorem History.exec_inv (op : (Nat → UInt8) × Op) (s : History) (hinv : AllInv hash s.cache s.last) :
    ∃ out t, History.exec hash op s = .ok (out, t) ∧ AllInv hash t.cache t.last := by
  obtain ⟨out, c', hexec, heffect⟩ := exec_effect hinv op.1 op.2
  refine ⟨out, ⟨c', _⟩, ?_, heffect.inv hinv⟩
  rw [History.exec, hexec]
  rfl

theorem get_returns_last_write (hash : Bytes → UInt64) (maxBytes : Int64) (onEvict : Bool)
    (c : Cache) (hnew : new maxBytes onEvict = .ok c) (ops : List ((Nat → UInt8) × Op)) :
    ∃ outs t, runAll (History.exec hash) ops ⟨c, fun _ ↦ none⟩ = .ok (outs, t) ∧
      ∀ k, t.cache.get hash k = .ok (.error errNoData) ∨
        ∃ v, t.last k = some v ∧ t.cache.get hash k = .ok (.ok v) := by
  obtain ⟨outs, t, hrun, hinv⟩ := runAll_invariant (P := fun _ ↦ True)
    (fun op s _ hs ↦ History.exec_inv op s hs) ops ⟨c, fun _ ↦ none⟩ (fun _ _ ↦ trivial)
    (new_inv hnew)
  refine ⟨outs, t, hrun, fun k ↦ ?_⟩
  obtain ⟨view, hget, hP, -⟩ := (hinv (Cache.bucketIdx hash k)).view k (hash k)
  rw [Cache.get, hget]
  -- what is in the ring under `k` is the last value written under `k`
  cases view with
  | none => exact .inl rfl
  | some w => exact .inr ⟨w.bytes, (hP w rfl).2.2, rfl⟩

theorem get_returns_last_write_small : ∃ c, new 1 true = .ok c ∧
    ∃ outs t, runAll (History.exec fun k ↦ UInt64.ofNat k.length)
        [(fun _ ↦ 7, .set [1] [2, 3]), (fun _ ↦ 7, .update [1] fun _ ↦ .ok (.part 1 1, true)),
          (fun _ ↦ 7, .set [4] [5]), (fun _ ↦ 7, .del [6])] ⟨c, fun _ ↦ none⟩ = .ok (outs, t) ∧
      ∀ k, t.cache.get (fun k ↦ UInt64.ofNat k.length) k = .ok (.error errNoData) ∨
        ∃ v, t.last k = some v ∧ t.cache.get (fun k ↦ UInt64.ofNat k.length) k = .ok (.ok v) :=
  ⟨_, rfl, get_returns_last_write _ 1 true _ rfl _⟩

end CommonLib.XCache
