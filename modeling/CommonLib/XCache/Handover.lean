import CommonLib.XCache.Calls

/-!
# What `Reset` hands over

`Reset` reads the entries by their positions, `Get` looks for a key.  In every state that calls and
resets lead to, whatever keys share a hash and whatever mutators have written to the values, the two
find the same; and after a `Reset` nothing is found until something is stored.
-/

namespace CommonLib.XCache

open CommonLib.Reasoning CommonLib.XError

inductive Request
  | call (r : Call)
  | reset

/-- A request to the cache, with what a new chunk holds. -/
def Cache.serve (hash : Bytes → UInt64) (request : (Nat → UInt8) × Request) (c : Cache) :
    Except Crash (Outcome (Option Bytes) × Cache) :=
  match request.2 with
  | .call r =>
      let i := bucketIdx hash r.key
      ((c.buckets i).call request.1 c.onEvict (hash r.key) r).map fun (out, b) ↦
        (out, c.setBucket i b)
  | .reset => c.reset.map fun (out, c) ↦ (⟨out.result.map fun _ ↦ none, out.evicted⟩, c)

/-- Whether the request has stored something. -/
def Request.stores (hash : Bytes → UInt64) (c : Cache) (ok : Bool) : Request → Bool
  | .call r => ok && (r.stored (c.current hash r.key)).isSome
  | .reset => false

/-- A cache, with whether something has been stored. -/
structure Watched where
  cache : Cache
  stored : Bool

def Watched.serve (hash : Bytes → UInt64) (request : (Nat → UInt8) × Request) (s : Watched) :
    Except Crash (Outcome (Option Bytes) × Watched) :=
  (s.cache.serve hash request).map fun (out, c) ↦
    (out, ⟨c, s.stored || request.2.stores hash s.cache out.result.isOk⟩)

/-! ## The operations as requests -/

def Op.request : Op → Request
  | .set k v => .call (.set k v)
  | .update k mutator => .call (.update k mutator.rewriter)
  | .getSet k provider => .call (.getSet k provider)
  | .get k => .call (.get k)
  | .del k => .call (.del k)
  | .reset => .reset

variable {hash : Bytes → UInt64} {c c' : Cache}

theorem exec_eq_serve {last : Bytes → Option Bytes} (hinv : AllInv hash c last)
    (junk : Nat → UInt8) (op : Op) : c.exec hash junk op = c.serve hash (junk, op.request) := by
  cases op with
  | update k mutator =>
      have hreading := updateInPlace_of_reading (hinv (Cache.bucketIdx hash k)) (h := hash k) junk k
        mutator c.onEvict
      simp only [Cache.exec, Cache.serve, Op.request, Bucket.call, Call.key, ← hreading,
        Mutator.rewriter]
      cases (c.buckets (Cache.bucketIdx hash k)).updateInPlace junk k (hash k) _ c.onEvict <;> rfl
  | get k =>
      have hget : c.get hash k = (c.buckets (Cache.bucketIdx hash k)).get k (hash k) := rfl
      simp only [Cache.exec, Cache.serve, Op.request, Bucket.call, Call.key, hget]
      cases (c.buckets (Cache.bucketIdx hash k)).get k (hash k) with
      | error crash => rfl
      | ok r => simp only [Except.map, setBucket_self]
  | set k v =>
      simp only [Cache.exec, Cache.serve, Op.request, Bucket.call, Call.key]
      cases (c.buckets (Cache.bucketIdx hash k)).setLocked junk k _ (hash k) c.onEvict <;> rfl
  | getSet k provider =>
      simp only [Cache.exec, Cache.serve, Op.request, Bucket.call, Call.key]
      cases (c.buckets (Cache.bucketIdx hash k)).getSet junk k (hash k) _ c.onEvict <;> rfl
  | del k => rfl
  | reset => rfl

/-! ## The tables of the buckets -/

/-- Each bucket has a table, with the keys that belong to it under their hashes. -/
structure Tabled (hash : Bytes → UInt64) (t : Fin bucketsCount → Table) (c : Cache) : Prop where
  laid : ∀ i, Laid (t i) (c.buckets i)
  placed : ∀ i h k val, t i h = some (k, val) → hash k = h ∧ Cache.bucketIdx hash k = i

variable {t : Fin bucketsCount → Table}

theorem Tabled.keyed (ht : Tabled hash t c) : Keyed hash c :=
  fun i ↦ (ht.laid i).toInv.imp fun h k val hstored ↦ ht.placed i h k val hstored

theorem Tabled.empty {n : Fin bucketsCount → Nat} (hpos : ∀ i, 0 < n i) (hle : ∀ i, n i ≤ 2 ^ 24)
    (onEvict : Bool) : Tabled hash (fun _ _ ↦ none) ⟨fun i ↦ .empty (n i), onEvict⟩ where
  laid i := empty_laid (hpos i) (hle i)
  placed := nofun

theorem Tabled.reset (ht : Tabled hash t c) :
    ∃ out c', c.reset = .ok (out, c') ∧ Tabled hash (fun _ _ ↦ none) c' ∧ c'.onEvict = c.onEvict ∧
      (c.onEvict = true → out.evicted.getD [] =
        (List.finRange bucketsCount).flatMap fun i ↦ liveItems (c.buckets i)) := by
  refine ⟨_, _, reset_eq (fun i ↦ ⟨_, (ht.laid i).toInv⟩) rfl,
    .empty (fun i ↦ (ht.laid i).shape.count_pos) (fun i ↦ (ht.laid i).shape.count_le) _, rfl, ?_⟩
  intro honEvict
  dsimp only
  rw [evicted_getD honEvict]
  simp only [honEvict, if_true]

theorem Tabled.setBucket (ht : Tabled hash t c) {i : Fin bucketsCount} {t₁ : Table} {b : Bucket}
    (hl : Laid t₁ b)
    (hplaced : ∀ h k val, t₁ h = some (k, val) → hash k = h ∧ Cache.bucketIdx hash k = i) :
    Tabled hash (Function.update t i t₁) (c.setBucket i b) where
  laid j := by
    by_cases hj : j = i
    · subst hj
      rw [setBucket_same, Function.update_self]
      exact hl
    · rw [setBucket_other c hj, Function.update_of_ne hj]
      exact ht.laid j
  placed j h k val hstored := by
    by_cases hj : j = i
    · subst hj
      rw [Function.update_self] at hstored
      exact hplaced h k val hstored
    · rw [Function.update_of_ne hj] at hstored
      exact ht.placed j h k val hstored

/-- A request returns, and if it stores nothing then the tables get nothing new. -/
theorem Tabled.serve (ht : Tabled hash t c) (request : (Nat → UInt8) × Request) :
    ∃ out c' t', c.serve hash request = .ok (out, c') ∧ Tabled hash t' c' ∧
      c'.onEvict = c.onEvict ∧
      (request.2.stores hash c out.result.isOk = false →
        ∀ i h kv, t' i h = some kv → ∃ val, t i h = some (kv.1, val)) := by
  obtain ⟨junk, request⟩ := request
  cases request with
  | reset =>
      obtain ⟨out, c', hreset, ht', honEvict, -⟩ := ht.reset
      refine ⟨⟨out.result.map fun _ ↦ none, out.evicted⟩, c', _, ?_, ht', honEvict, nofun⟩
      rw [Cache.serve, hreset]
      rfl
  | call r =>
      obtain ⟨out, b, t₁, hcall, hcalled⟩ :=
        (ht.laid (Cache.bucketIdx hash r.key)).call junk c.onEvict (hash r.key) r
      refine ⟨out, c.setBucket (Cache.bucketIdx hash r.key) b, _, ?_,
        ht.setBucket hcalled.laid fun h k val hstored ↦ ?_, rfl, fun hquiet i h kv hstored ↦ ?_⟩
      · rw [Cache.serve]
        dsimp only
        rw [hcall]
        rfl
      · -- the key of an entry is the one it had, or that of the call
        obtain ⟨val', hbefore⟩ | ⟨rfl, hkey, -⟩ := hcalled.key hstored
        · exact ht.placed _ h k val' hbefore
        · rw [show k = r.key from hkey]
          exact ⟨rfl, rfl⟩
      · by_cases hi : i = Cache.bucketIdx hash r.key
        · subst hi
          rw [Function.update_self] at hstored
          obtain hbefore | ⟨-, -, hval, hok⟩ := hcalled.key hstored
          · exact hbefore
          · have hcur : c.current hash r.key =
                (c.buckets (Cache.bucketIdx hash r.key)).current r.key (hash r.key) := rfl
            rw [Request.stores, hok, hcur, hval] at hquiet
            cases hquiet
        · rw [Function.update_of_ne hi] at hstored
          exact ⟨kv.2, hstored⟩

theorem new_tabled {maxBytes : Int64} {onEvict : Bool} {c₀ : Cache}
    (hnew : new maxBytes onEvict = .ok c₀) (earlier : List ((Nat → UInt8) × Request))
    {outs : List (Outcome (Option Bytes))}
    (hrun : runAll (Cache.serve hash) earlier c₀ = .ok (outs, c)) :
    (∃ t, Tabled hash t c) ∧ c.onEvict = onEvict := by
  obtain ⟨n, hpos, hle, rfl⟩ := new_eq hnew
  have hstep : ∀ request (c : Cache), True → ((∃ t, Tabled hash t c) ∧ c.onEvict = onEvict) →
      ∃ out c', c.serve hash request = .ok (out, c') ∧ (∃ t, Tabled hash t c') ∧
        c'.onEvict = onEvict := by
    rintro request c - ⟨⟨t, ht⟩, honEvict⟩
    obtain ⟨out, c', t', hserve, ht', hsame, -⟩ := ht.serve request
    exact ⟨out, c', hserve, ⟨t', ht'⟩, hsame.trans honEvict⟩
  obtain ⟨outs', c', hrun', htabled⟩ := runAll_invariant hstep earlier ⟨fun _ ↦ .empty n, onEvict⟩
    (fun _ _ ↦ trivial) ⟨⟨_, .empty (fun _ ↦ hpos) (fun _ ↦ hle) onEvict⟩, rfl⟩
  cases hrun.symm.trans hrun'
  exact htabled

/-! ## Until something is stored -/

/-- As long as nothing has been stored the tables are empty. -/
def Watched.Vacant (hash : Bytes → UInt64) (s : Watched) : Prop :=
  ∃ t, Tabled hash t s.cache ∧ (s.stored = false → ∀ i h, t i h = none)

theorem Watched.Vacant.serve {s : Watched} (hs : s.Vacant hash)
    (request : (Nat → UInt8) × Request) :
    ∃ out s', Watched.serve hash request s = .ok (out, s') ∧ s'.Vacant hash := by
  obtain ⟨t, ht, hnone⟩ := hs
  obtain ⟨out, c', t', hserve, ht', -, hquiet⟩ := ht.serve request
  refine ⟨out, ⟨c', s.stored || request.2.stores hash s.cache out.result.isOk⟩, ?_, t', ht',
    fun hstored i h ↦ ?_⟩
  · rw [Watched.serve, hserve]
    rfl
  · obtain ⟨hbefore, hnow⟩ := Bool.or_eq_false_iff.mp hstored
    rw [Option.eq_none_iff_forall_ne_some]
    intro kv hkv
    obtain ⟨val, hval⟩ := hquiet hnow i h kv hkv
    rw [hnone hbefore] at hval
    cases hval

theorem Watched.Vacant.get {s : Watched} (hs : s.Vacant hash) (hstored : s.stored = false)
    (k : Bytes) : s.cache.get hash k = .ok (.error errNoData) := by
  obtain ⟨t, ht, hnone⟩ := hs
  obtain hget | ⟨-, val, -, -, htable, -⟩ :=
    (ht.laid (Cache.bucketIdx hash k)).toInv.getLocked (h := hash k) k
  · rw [Cache.get, hget]
    rfl
  · rw [hnone hstored] at htable
    cases htable

/-- `Reset` hands over what `Get` returns, each pair once, and leaves nothing. -/
theorem reset_hands_over (hash : Bytes → UInt64) (maxBytes : Int64) (c₀ c : Cache)
    (hnew : new maxBytes true = .ok c₀) (earlier : List ((Nat → UInt8) × Request))
    (outs : List (Outcome (Option Bytes)))
    (hrun : runAll (Cache.serve hash) earlier c₀ = .ok (outs, c)) :
    ∃ out c', c.reset = .ok (out, c') ∧ (out.evicted.getD []).Nodup ∧
      (∀ k v, (k, v) ∈ out.evicted.getD [] ↔ c.get hash k = .ok (.ok v)) ∧
      (∀ i h w k v, (c.buckets i).m.lookup h = some w →
        ((c.buckets i).readItem w = .ok (.ok (k, v)) ↔ (c.buckets i).get k h = .ok (.ok v))) ∧
      ∀ later : List ((Nat → UInt8) × Request), ∃ outs' s,
        runAll (Watched.serve hash) later ⟨c', false⟩ = .ok (outs', s) ∧
        (s.stored = false → ∀ k, s.cache.get hash k = .ok (.error errNoData)) := by
  obtain ⟨⟨t, ht⟩, honEvict⟩ := new_tabled hnew earlier hrun
  obtain ⟨out, c', hreset, ht', -, hitems⟩ := ht.reset
  refine ⟨out, c', hreset, ?_, fun k v ↦ ?_, fun i h w k v hw ↦ ?_, fun later ↦ ?_⟩
  · rw [hitems honEvict]
    exact ht.keyed.nodup_liveItems
  · rw [hitems honEvict]
    exact ht.keyed.mem_liveItems_iff
  · exact (ht.laid i).toInv.readItem_iff_get hw
  · have hstep : ∀ request (s : Watched), True → s.Vacant hash →
        ∃ out s', Watched.serve hash request s = .ok (out, s') ∧ s'.Vacant hash :=
      fun request _ _ hs ↦ hs.serve request
    obtain ⟨outs', s, hrun', hs⟩ := runAll_invariant hstep later ⟨c', false⟩ (fun _ _ ↦ trivial)
      ⟨_, ht', fun _ _ _ ↦ rfl⟩
    exact ⟨outs', s, hrun', fun hstored k ↦ hs.get hstored k⟩

theorem reset_hands_over_small : ∃ c₀ c outs, new 1 true = .ok c₀ ∧
    runAll (Cache.serve fun k ↦ UInt64.ofNat k.length)
      [(fun _ ↦ 7, .call (.set [1] [2, 3])), (fun _ ↦ 7, .call (.set [4] [5])),
        (fun _ ↦ 7, .call (.set [8, 9] [6]))] c₀ = .ok (outs, c) ∧
    ∃ out c', c.reset = .ok (out, c') ∧ (out.evicted.getD []).Nodup ∧
      (∀ k v, (k, v) ∈ out.evicted.getD [] ↔
        c.get (fun k ↦ UInt64.ofNat k.length) k = .ok (.ok v)) ∧
      (∀ i h w k v, (c.buckets i).m.lookup h = some w →
        ((c.buckets i).readItem w = .ok (.ok (k, v)) ↔ (c.buckets i).get k h = .ok (.ok v))) ∧
      ∀ later : List ((Nat → UInt8) × Request), ∃ outs' s,
        runAll (Watched.serve fun k ↦ UInt64.ofNat k.length) later ⟨c', false⟩ = .ok (outs', s) ∧
        (s.stored = false → ∀ k,
          s.cache.get (fun k ↦ UInt64.ofNat k.length) k = .ok (.error errNoData)) :=
  ⟨_, _, _, rfl, rfl, reset_hands_over _ 1 _ _ rfl
    [(fun _ ↦ 7, .call (.set [1] [2, 3])), (fun _ ↦ 7, .call (.set [4] [5])),
      (fun _ ↦ 7, .call (.set [8, 9] [6]))] _ rfl⟩

end CommonLib.XCache
