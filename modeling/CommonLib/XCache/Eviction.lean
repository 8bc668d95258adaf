import CommonLib.XCache.Contents

/-!
# What is handed to the callback

`cleanLocked` reads the entries it drops with the test by which it dropped them, so a write hands
over nothing.  What a write runs over is lost without a report; `Reset` reports everything that can
be read.  So no loss goes unreported exactly if no write runs over a live entry.
-/

namespace CommonLib.XCache

open CommonLib.Reasoning CommonLib.XError

/-! ## Writing over entries -/

/-- Whether `n` more bytes run over the live entry at `v`: one of the generation before that starts
below their end, or, if they do not fit behind the last entry and start the ring anew, any of the
generation before and one of the current generation that starts below `n`. -/
def Bucket.overruns (b : Bucket) (n : Nat) (v : UInt64) : Bool :=
  let chunkIdxNew := (b.idx + n) / chunkSize
  if chunkIdxNew ≤ b.idx / chunkSize then genOf v != b.bGen && decide (posOf v < b.idx + n)
  else if chunkIdxNew < b.chunks.length then
    genOf v != b.bGen && decide (posOf v < chunkIdxNew * chunkSize + n)
  else genOf v != b.bGen || decide (posOf v < n)

section Bucket

variable {P : UInt64 → Bytes → Bytes → Prop} {b b' : Bucket} {h v : UInt64} {k val : Bytes}

theorem Bucket.overruns_eq (b : Bucket) (n : Nat) (v : UInt64) :
    b.overruns n v = if (b.place n).wraps then genOf v != b.bGen || decide (posOf v < n)
      else genOf v != b.bGen && decide (posOf v < (b.place n).start + n) := by
  unfold overruns
  dsimp only
  by_cases hcross : (b.idx + n) / chunkSize ≤ b.idx / chunkSize
  · have hplace : b.place n = ⟨b.idx, false, false⟩ := if_neg (Nat.not_lt.mpr hcross)
    rw [hplace, if_pos hcross]
    rfl
  · rw [if_neg hcross]
    by_cases hlast : (b.idx + n) / chunkSize < b.chunks.length
    · have hplace : b.place n = ⟨(b.idx + n) / chunkSize * chunkSize, true, false⟩ :=
        (if_pos (Nat.not_le.mp hcross)).trans (if_neg (Nat.not_le.mpr hlast))
      rw [hplace, if_pos hlast]
      rfl
    · have hplace : b.place n = ⟨0, true, true⟩ :=
        (if_pos (Nat.not_le.mp hcross)).trans (if_pos (Nat.not_lt.mp hlast))
      rw [hplace, if_neg hlast]
      rfl

theorem Written.isLive_iff (hinv : Inv P b) (hfits : kvLen k val < chunkSize)
    (hw : Written b b' h k val) (hlive : b.isLive v = true) :
    b'.isLive v = true ↔ b.overruns (kvLen k val) v = false := by
  obtain ⟨-, -, -, -, hzero, hafter⟩ :=
    Bucket.place_spec hinv.shape.count_pos hinv.shape.idx hfits
  have hbound : b.bGen.toNat < 2 ^ 24 := by rw [bGen_toNat]; omega
  have hgen : b'.bGen.toNat = b'.gen.toNat % 2 ^ 24 := bGen_toNat b'
  rw [Bucket.isLive_iff] at hlive ⊢
  rw [hgen, hw.gen, hw.idx, Bucket.overruns_eq]
  cases hwraps : (b.place (kvLen k val)).wraps with
  | false =>
      have hstart := hafter hwraps
      simp only [Bool.false_eq_true, if_false, Bool.and_eq_false_iff, bne_eq_false_iff_eq,
        decide_eq_false_iff_not, ← UInt64.toNat_inj, ← bGen_toNat b]
      unfold PrevGen at *
      omega
  | true =>
      -- Neither the new generation nor the one before it is the one two wraps back.
      obtain ⟨hnext, -⟩ := b.nextGen_spec
      have hpos := hinv.shape.gen
      simp only [if_true, Bool.or_eq_false_iff, bne_eq_false_iff_eq, decide_eq_false_iff_not,
        ← UInt64.toNat_inj, hzero hwraps]
      unfold PrevGen at *
      omega

/-! ## The items of a bucket -/

theorem itemOf_of_dead (h : b.isLive v = false) : itemOf b v = none := by
  rw [itemOf, readItem_of_not_live h]

theorem Inv.itemOf_of_live (hinv : Inv P b) (hv : b.m.lookup h = some v)
    (hlive : b.isLive v = true) : ∃ k val, P h k val ∧ itemOf b v = some (k, val) := by
  obtain ⟨k, val, hP, hrec, -⟩ := (hinv.entry h v hv).record_of_live hlive
  refine ⟨k, val, hP, ?_⟩
  rw [itemOf, readItem_of_record hlive hrec]

theorem Inv.of_itemOf (hinv : Inv P b) (hv : b.m.lookup h = some v)
    (hitem : itemOf b v = some (k, val)) : b.isLive v = true ∧ P h k val := by
  cases hlive : b.isLive v with
  | false =>
      rw [itemOf_of_dead hlive] at hitem
      cases hitem
  | true =>
      obtain ⟨k', val', hP, hitem'⟩ := hinv.itemOf_of_live hv hlive
      rw [hitem] at hitem'
      cases hitem'
      exact ⟨rfl, hP⟩

theorem itemOf_eq_some_iff {kv : Bytes × Bytes} :
    itemOf b v = some kv ↔ b.readItem v = .ok (.ok kv) := by
  unfold itemOf
  split
  next kv' hread =>
    rw [hread]
    simp
  next hne => exact iff_of_false nofun (hne kv)

theorem Bucket.lookup_of_get (hget : b.get k h = .ok (.ok val)) : ∃ v, b.m.lookup h = some v := by
  cases hv : b.m.lookup h with
  | some v => exact ⟨v, rfl⟩
  | none =>
      unfold Bucket.get Bucket.getLocked at hget
      rw [hv] at hget
      cases hget

/-- The two decoders agree: reading the entry under a hash, and looking for its key. -/
theorem Inv.readItem_iff_get (hinv : Inv P b) (hv : b.m.lookup h = some v) :
    b.readItem v = .ok (.ok (k, val)) ↔ b.get k h = .ok (.ok val) := by
  have hok := hinv.entry h v hv
  have hne := hok.ne_zero hinv.shape.gen
  cases hlive : b.isLive v with
  | false =>
      have hget : b.get k h = .ok (.error errNoData) := by
        unfold Bucket.get Bucket.getLocked Bucket.locate
        simp only [hv, Option.getD_some, if_neg hne, hlive]
        rfl
      rw [readItem_of_not_live hlive, hget]
      simp
  | true =>
      obtain ⟨k', val', -, hrec, -⟩ := hok.record_of_live hlive
      rw [readItem_of_record hlive hrec, Bucket.get, getLocked_of_record hv hne hlive hrec]
      by_cases hk : k = k'
      · simp [hk, Except.map]
      · simp [hk, Ne.symm hk, Except.map]

theorem mem_liveItems {kv : Bytes × Bytes} :
    kv ∈ liveItems b ↔ ∃ h v, b.m.lookup h = some v ∧ itemOf b v = some kv := by
  rw [liveItems, List.mem_filterMap]
  apply Iff.intro
  · rintro ⟨e, he, hitem⟩
    exact ⟨e.1, e.2, AList.mem_lookup_iff.mpr he, hitem⟩
  · rintro ⟨h, v, hv, hitem⟩
    exact ⟨⟨h, v⟩, AList.mem_lookup_iff.mp hv, hitem⟩

/-- Entries have different hashes, so their items have different keys. -/
theorem Inv.nodup_liveItems {hash : Bytes → UInt64} (hinv : Inv P b)
    (hP : ∀ h k val, P h k val → hash k = h) : (liveItems b).Nodup := by
  have hhash : ∀ e ∈ b.m.entries, ∀ kv, itemOf b e.2 = some kv → hash kv.1 = e.1 :=
    fun e he kv hitem ↦ hP _ _ _ (hinv.of_itemOf (AList.mem_lookup_iff.mpr he) hitem).2
  rw [List.Nodup, liveItems, List.pairwise_filterMap]
  apply (List.nodupKeys_iff_pairwise.mp b.m.nodupKeys).imp_of_mem
  intro e e' he he' hne kv hkv kv' hkv' heq
  apply hne
  rw [← hhash e he kv hkv, ← hhash e' he' kv' hkv', heq]

end Bucket

/-! ## What a key has, when no two keys have one hash -/

variable {hash : Bytes → UInt64} {U : Set Bytes} {c c' : Cache} {last : Bytes → Option Bytes}

/-- The keys written so far are among `U`, on which the hash is injective. -/
structure Sound (hash : Bytes → UInt64) (U : Set Bytes) (c : Cache)
    (last : Bytes → Option Bytes) : Prop where
  inv : AllInv hash c last
  known : ∀ k v, last k = some v → k ∈ U
  inj : Set.InjOn hash U

def Cache.HasLive (hash : Bytes → UInt64) (c : Cache) (k : Bytes) : Prop :=
  ∃ v, (c.buckets (bucketIdx hash k)).m.lookup (hash k) = some v ∧
    (c.buckets (bucketIdx hash k)).isLive v = true

theorem Sound.current_iff (hs : Sound hash U c last) {k val : Bytes} :
    c.current hash k = some val ↔ last k = some val ∧ c.HasLive hash k := by
  apply Iff.intro
  · intro hcur
    rcases (hs.inv (Cache.bucketIdx hash k)).getLocked (h := hash k) k with
      hnone | ⟨v, val', hv, hlive, hP, -, -, hsome⟩
    · rw [Cache.current, Cache.get, hnone] at hcur
      cases hcur
    · rw [Cache.current, Cache.get, hsome] at hcur
      cases hcur
      exact ⟨hP.2.2, v, hv, hlive⟩
  · rintro ⟨hlast, v, hv, hlive⟩
    have hok := (hs.inv (Cache.bucketIdx hash k)).entry _ _ hv
    obtain ⟨k', val', ⟨hhash, -, hlast'⟩, hrec, -⟩ := hok.record_of_live hlive
    -- the entry under the hash of `k` is that of `k`
    have hk : k = k' := hs.inj (hs.known k val hlast) (hs.known k' val' hlast') hhash.symm
    subst hk
    rw [hlast] at hlast'
    cases hlast'
    have hne := hok.ne_zero (hs.inv _).shape.gen
    rw [Cache.current, Cache.get, getLocked_of_record hv hne hlive hrec, if_pos rfl]
    rfl

/-- The key an operation may write or delete. -/
def Op.key : Op → Option Bytes
  | .set k _ | .update k _ | .getSet k _ | .del k => some k
  | .get _ | .reset => none

theorem Op.key_of_written {op : Op} {cur : Bytes → Option Bytes} {k val : Bytes}
    (h : op.written cur = some (k, val)) : op.key = some k := by
  cases op with
  | set k' v =>
      cases h
      rfl
  | update k' mutator =>
      unfold Op.written at h
      dsimp only at h
      split at h
      · cases h
        rfl
      · cases h
  | getSet k' provider =>
      unfold Op.written at h
      dsimp only at h
      split at h
      · cases h
        rfl
      · cases h
  | get k' => cases h
  | del k' => cases h
  | reset => cases h

/-- `k` is what a successful operation writes. -/
def Op.writes (cur : Bytes → Option Bytes) (op : Op) (ok : Bool) (k : Bytes) : Bool :=
  ok && (op.written cur).any (·.1 == k)

def Op.deletes (op : Op) (k : Bytes) : Bool :=
  match op with
  | .del k' => k' == k
  | _ => false

def Op.isReset : Op → Bool
  | .reset => true
  | _ => false

variable {op : Op} {out : Outcome (Option Bytes)}

theorem writes_eq_false {k k₀ val₀ : Bytes}
    (hwritten : op.written (c.current hash) = some (k₀, val₀)) (hok : out.result.isOk = true) :
    op.writes (c.current hash) out.result.isOk k = false ↔ k ≠ k₀ := by
  rw [Op.writes, hok, hwritten, Bool.true_and, Option.any_some, beq_eq_false_iff_ne, ne_comm]

theorem Sound.effect (hs : Sound hash U c last) (hkey : ∀ k, op.key = some k → k ∈ U)
    (heffect : Effect hash c last op out c') :
    Sound hash U c' (lastWrite (c.current hash) last op out.result.isOk) := by
  refine ⟨heffect.inv hs.inv, fun k v hv ↦ ?_, hs.inj⟩
  cases heffect with
  | same _ hlast _ =>
      rw [hlast] at hv
      exact hs.known k v hv
  | @write _ _ k₀ val₀ _ hwritten hok _ _ _ _ =>
      rw [hok, lastWrite_written hwritten] at hv
      by_cases hk : k = k₀
      · rw [hk]
        exact hkey k₀ (Op.key_of_written hwritten)
      · rw [Function.update_of_ne hk] at hv
        exact hs.known k v hv
  | del k₀ =>
      change Function.update last k₀ none k = some v at hv
      by_cases hk : k = k₀
      · rw [hk, Function.update_self] at hv
        cases hv
      · rw [Function.update_of_ne hk] at hv
        exact hs.known k v hv
  | reset _ => cases hv

/-- After a write to `k` another key has what it had, unless the write ran over it. -/
theorem Written.hasLive_iff {k k' val : Bytes} {b : Bucket} (hs : Sound hash U c last)
    (hfits : kvLen k val < chunkSize)
    (hw : Written (c.buckets (Cache.bucketIdx hash k)) b (hash k) k val)
    (hne : hash k' ≠ hash k) :
    (c.setBucket (Cache.bucketIdx hash k) b).HasLive hash k' ↔
      ∃ v, (c.buckets (Cache.bucketIdx hash k')).m.lookup (hash k') = some v ∧
        (c.buckets (Cache.bucketIdx hash k')).isLive v = true ∧
        (Cache.bucketIdx hash k' = Cache.bucketIdx hash k →
          (c.buckets (Cache.bucketIdx hash k')).overruns (kvLen k val) v = false) := by
  unfold Cache.HasLive
  by_cases hi : Cache.bucketIdx hash k' = Cache.bucketIdx hash k
  · rw [hi, setBucket_same]
    apply Iff.intro
    · rintro ⟨v, hv, hlive⟩
      have hv₀ := hw.sub _ hne v hv
      have hlive₀ := hw.back _ hne v hv₀ hlive
      exact ⟨v, hv₀, hlive₀, fun _ ↦ (hw.isLive_iff (hs.inv _) hfits hlive₀).mp hlive⟩
    · rintro ⟨v, hv, hlive, hover⟩
      have hlive' := (hw.isLive_iff (hs.inv _) hfits hlive).mpr (hover rfl)
      exact ⟨v, hw.keep _ hne v hv hlive', hlive'⟩
  · rw [setBucket_other c hi]
    apply Iff.intro
    · rintro ⟨v, hv, hlive⟩
      exact ⟨v, hv, hlive, fun heq ↦ absurd heq hi⟩
    · rintro ⟨v, hv, hlive, -⟩
      exact ⟨v, hv, hlive⟩

theorem del_hasLive_iff {k k' : Bytes} (hne : hash k' ≠ hash k) :
    (c.setBucket (Cache.bucketIdx hash k)
      ((c.buckets (Cache.bucketIdx hash k)).del (hash k))).HasLive hash k' ↔
      c.HasLive hash k' := by
  unfold Cache.HasLive
  by_cases hi : Cache.bucketIdx hash k' = Cache.bucketIdx hash k
  · rw [hi, setBucket_same, Bucket.del, AList.lookup_erase_ne hne]
    rfl
  · rw [setBucket_other c hi]

/-- A key that is not written has nothing that it did not have before. -/
theorem Effect.current_of_not_written (hs : Sound hash U c last)
    (hkey : ∀ k, op.key = some k → k ∈ U) (heffect : Effect hash c last op out c') {k v : Bytes}
    (hnot : op.writes (c.current hash) out.result.isOk k = false)
    (hcur : c'.current hash k = some v) : c.current hash k = some v := by
  have hs' := hs.effect hkey heffect
  obtain ⟨hlast, hlive⟩ := hs'.current_iff.mp hcur
  have hk := hs'.known k v hlast
  cases heffect with
  | same _ _ _ => exact hcur
  | @write _ _ k₀ val₀ _ hwritten hok _ hfits _ hw =>
      have hne : k ≠ k₀ := (writes_eq_false hwritten hok).mp hnot
      rw [hok, lastWrite_written hwritten, Function.update_of_ne hne] at hlast
      have hhash := hs.inj.ne hk (hkey k₀ (Op.key_of_written hwritten)) hne
      obtain ⟨w, hw, hwlive, -⟩ := (hw.hasLive_iff hs hfits hhash).mp hlive
      exact hs.current_iff.mpr ⟨hlast, w, hw, hwlive⟩
  | del k₀ =>
      change Function.update last k₀ none k = some v at hlast
      by_cases hne : k = k₀
      · rw [hne, Function.update_self] at hlast
        cases hlast
      · rw [Function.update_of_ne hne] at hlast
        have hhash := hs.inj.ne hk (hkey k₀ rfl) hne
        exact hs.current_iff.mpr ⟨hlast, (del_hasLive_iff hhash).mp hlive⟩
  | reset _ => cases hlast

/-! ## Reports -/

/-- Every entry is in the bucket of its key and under its hash. -/
def Keyed (hash : Bytes → UInt64) (c : Cache) : Prop :=
  ∀ i, Inv (fun h k _ ↦ hash k = h ∧ Cache.bucketIdx hash k = i) (c.buckets i)

theorem AllInv.keyed (hinv : AllInv hash c last) : Keyed hash c :=
  fun i ↦ (hinv i).imp fun _ _ _ hs ↦ ⟨hs.1, hs.2.1⟩

theorem Keyed.nodup_liveItems (hk : Keyed hash c) :
    ((List.finRange bucketsCount).flatMap fun i ↦ liveItems (c.buckets i)).Nodup := by
  rw [List.nodup_flatMap]
  refine ⟨fun i _ ↦ (hk i).nodup_liveItems fun _ _ _ hP ↦ hP.1, ?_⟩
  apply (List.nodup_finRange bucketsCount).imp
  -- The bucket an item is in is that of its key.
  intro i j hne kv hi hj
  obtain ⟨h, v, hv, hitem⟩ := mem_liveItems.mp hi
  obtain ⟨h', v', hv', hitem'⟩ := mem_liveItems.mp hj
  apply hne
  rw [← ((hk i).of_itemOf hv hitem).2.2, ← ((hk j).of_itemOf hv' hitem').2.2]

/-- What `readItem` finds in all the buckets is what `Get` returns, whatever keys share a hash. -/
theorem Keyed.mem_liveItems_iff (hk : Keyed hash c) {k val : Bytes} :
    (k, val) ∈ ((List.finRange bucketsCount).flatMap fun i ↦ liveItems (c.buckets i)) ↔
      c.get hash k = .ok (.ok val) := by
  rw [List.mem_flatMap]
  apply Iff.intro
  · rintro ⟨i, -, hmem⟩
    obtain ⟨h, v, hv, hitem⟩ := mem_liveItems.mp hmem
    obtain ⟨-, rfl, rfl⟩ := (hk i).of_itemOf hv hitem
    exact ((hk _).readItem_iff_get hv).mp (itemOf_eq_some_iff.mp hitem)
  · intro hget
    obtain ⟨v, hv⟩ := Bucket.lookup_of_get hget
    refine ⟨Cache.bucketIdx hash k, List.mem_finRange _, mem_liveItems.mpr ⟨_, v, hv, ?_⟩⟩
    exact itemOf_eq_some_iff.mpr (((hk _).readItem_iff_get hv).mpr hget)

theorem current_eq_some_iff {k val : Bytes} :
    c.current hash k = some val ↔ c.get hash k = .ok (.ok val) := by
  unfold Cache.current
  split
  next v hget =>
    rw [hget]
    simp
  next hne => exact iff_of_false nofun (hne val)

/-- The callback is not called for no items, which makes no difference to what it is given. -/
theorem evicted_getD {items : Items} (honEvict : c.onEvict = true) :
    (if c.onEvict = true ∧ items ≠ [] then some items else none).getD [] = items := by
  by_cases hnil : items = []
  · rw [if_neg fun h ↦ h.2 hnil, hnil, Option.getD_none]
  · rw [if_pos ⟨honEvict, hnil⟩, Option.getD_some]

/-- Only `Reset` hands anything over: what can be read, each pair once. -/
theorem Effect.count_evicted (hs : Sound hash U c last) (honEvict : c.onEvict = true)
    (heffect : Effect hash c last op out c') (k v : Bytes) :
    (out.evicted.getD []).count (k, v) =
      if op.isReset = true ∧ c.current hash k = some v then 1 else 0 := by
  cases heffect with
  | same hnone hlast _ =>
      have hnot : ¬ (op.isReset = true ∧ c.current hash k = some v) := by
        rintro ⟨hreset, hcur⟩
        cases op with
        | reset =>
            rw [hs.current_iff, ← hlast] at hcur
            cases hcur.1
        | _ => cases hreset
      rw [hnone, Option.getD_none, List.count_nil, if_neg hnot]
  | write hwritten _ hnil _ _ _ =>
      have hop : ¬ op.isReset = true := by
        intro hreset
        cases op with
        | reset => cases hwritten
        | _ => cases hreset
      rw [hnil, List.count_nil, if_neg fun h ↦ hop h.1]
  | del k₀ => rfl
  | @reset items hitems =>
      simp only [honEvict, if_true] at hitems
      dsimp only
      rw [evicted_getD honEvict, hitems, hs.inv.keyed.nodup_liveItems.count]
      simp only [hs.inv.keyed.mem_liveItems_iff, current_eq_some_iff, Op.isReset, true_and]

/-! ## Losses -/

/-- Nothing live is in the way of what the operation writes. -/
def NoOverrun (hash : Bytes → UInt64) (c : Cache) (op : Op) : Prop :=
  ∀ k val, op.written (c.current hash) = some (k, val) → kvLen k val < chunkSize →
    ∀ h ≠ hash k, ∀ v, (c.buckets (Cache.bucketIdx hash k)).m.lookup h = some v →
      (c.buckets (Cache.bucketIdx hash k)).isLive v = true →
      (c.buckets (Cache.bucketIdx hash k)).overruns (kvLen k val) v = false

/-- `Get(k)` returned `v` before the operation and no longer does, and the operation is neither a
write to `k` nor a deletion of it. -/
structure Lost (hash : Bytes → UInt64) (c : Cache) (op : Op) (out : Outcome (Option Bytes))
    (c' : Cache) (k v : Bytes) : Prop where
  before : c.current hash k = some v
  after : c'.current hash k ≠ some v
  writes : op.writes (c.current hash) out.result.isOk k = false
  deletes : op.deletes k = false

/-- Without an overrun only `Reset` loses anything. -/
theorem Lost.isReset {k v : Bytes} (hs : Sound hash U c last)
    (hkey : ∀ k, op.key = some k → k ∈ U) (heffect : Effect hash c last op out c')
    (hover : NoOverrun hash c op) (hlost : Lost hash c op out c' k v) : op.isReset = true := by
  have hs' := hs.effect hkey heffect
  obtain ⟨hlast, w, hw, hlive⟩ := hs.current_iff.mp hlost.before
  have hk := hs.known k v hlast
  cases heffect with
  | same _ _ _ => exact absurd hlost.before hlost.after
  | @write _ _ k₀ val₀ _ hwritten hok _ hfits _ hwrite =>
      have hne : k ≠ k₀ := (writes_eq_false hwritten hok).mp hlost.writes
      have hhash := hs.inj.ne hk (hkey k₀ (Op.key_of_written hwritten)) hne
      refine absurd (hs'.current_iff.mpr ⟨?_, ?_⟩) hlost.after
      · rw [hok, lastWrite_written hwritten, Function.update_of_ne hne, hlast]
      · refine (hwrite.hasLive_iff hs hfits hhash).mpr ⟨w, hw, hlive, fun hi ↦ ?_⟩
        rw [hi] at hw hlive ⊢
        exact hover k₀ val₀ hwritten hfits _ hhash w hw hlive
  | del k₀ =>
      have hne : k ≠ k₀ := by
        rintro rfl
        exact absurd hlost.deletes (by simp [Op.deletes])
      have hhash := hs.inj.ne hk (hkey k₀ rfl) hne
      refine absurd (hs'.current_iff.mpr ⟨?_, ?_⟩) hlost.after
      · change Function.update last k₀ none k = some v
        rw [Function.update_of_ne hne, hlast]
      · exact (del_hasLive_iff hhash).mpr ⟨w, hw, hlive⟩
  | reset _ => rfl

theorem Op.not_reset_of_written {cur : Bytes → Option Bytes} {kv : Bytes × Bytes}
    (h : op.written cur = some kv) : op.isReset = false ∧ ∀ k, op.deletes k = false := by
  cases op with
  | del k => cases h
  | reset => cases h
  | _ => exact ⟨rfl, fun _ ↦ rfl⟩

theorem Effect.written {k val : Bytes} (heffect : Effect hash c last op out c')
    (hwritten : op.written (c.current hash) = some (k, val)) (hfits : kvLen k val < chunkSize) :
    out.result.isOk = true ∧ ∃ b, c' = c.setBucket (Cache.bucketIdx hash k) b ∧
      Written (c.buckets (Cache.bucketIdx hash k)) b (hash k) k val := by
  cases heffect with
  | same _ _ hlarge => exact absurd (hlarge k val hwritten) (Nat.not_le.mpr hfits)
  | @write _ _ _ _ b hwritten' hok _ _ _ hwrite =>
      rw [hwritten] at hwritten'
      cases hwritten'
      exact ⟨hok, b, rfl, hwrite⟩
  | del k' => cases hwritten
  | reset _ => cases hwritten

/-- A key whose entry is in the way of what is written loses its value. -/
theorem Effect.lost_of_overruns {k v k₀ val₀ : Bytes} {w : UInt64} (hs : Sound hash U c last)
    (hkey : ∀ k, op.key = some k → k ∈ U) (heffect : Effect hash c last op out c')
    (hwritten : op.written (c.current hash) = some (k₀, val₀)) (hfits : kvLen k₀ val₀ < chunkSize)
    (hcur : c.current hash k = some v) (hne : hash k ≠ hash k₀)
    (hi : Cache.bucketIdx hash k = Cache.bucketIdx hash k₀)
    (hw : (c.buckets (Cache.bucketIdx hash k)).m.lookup (hash k) = some w)
    (hover : (c.buckets (Cache.bucketIdx hash k)).overruns (kvLen k₀ val₀) w = true) :
    Lost hash c op out c' k v := by
  have hs' := hs.effect hkey heffect
  obtain ⟨hok, b, rfl, hwrite⟩ := heffect.written hwritten hfits
  refine ⟨hcur, fun hcur' ↦ ?_, ?_, (Op.not_reset_of_written hwritten).2 k⟩
  · obtain ⟨w', hw', -, hfree⟩ :=
      (hwrite.hasLive_iff hs hfits hne).mp (hs'.current_iff.mp hcur').2
    rw [hw] at hw'
    cases hw'
    rw [hfree hi] at hover
    cases hover
  · rw [writes_eq_false hwritten hok]
    rintro rfl
    exact hne rfl

/-- An overrun loses something, and not by `Reset`. -/
theorem Effect.lost_of_overrun (hs : Sound hash U c last)
    (hkey : ∀ k, op.key = some k → k ∈ U) (heffect : Effect hash c last op out c')
    (hover : ¬ NoOverrun hash c op) : op.isReset = false ∧ ∃ k v, Lost hash c op out c' k v := by
  unfold NoOverrun at hover
  push Not at hover
  obtain ⟨k₀, val₀, hwritten, hfits, h, hne, w, hw, hlive, hover⟩ := hover
  obtain ⟨k, val, ⟨rfl, hi, hlast⟩, -⟩ := (hs.inv _).itemOf_of_live hw hlive
  rw [← hi] at hw hlive hover
  have hcur := hs.current_iff.mpr ⟨hlast, w, hw, hlive⟩
  exact ⟨(Op.not_reset_of_written hwritten).1, k, val, heffect.lost_of_overruns hs hkey hwritten
    hfits hcur hne hi hw (Bool.eq_true_of_not_eq_false hover)⟩

/-! ## Runs -/

/-- What the operations hand over up to the next write to `k`. -/
def reports (hash : Bytes → UInt64) (k : Bytes) : List ((Nat → UInt8) × Op) → Cache → Items
  | [], _ => []
  | op :: ops, c =>
      match c.exec hash op.1 op.2 with
      | .error _ => []
      | .ok (out, c') =>
          if op.2.writes (c.current hash) out.result.isOk k then []
          else out.evicted.getD [] ++ reports hash k ops c'

/-- Whatever an operation of the run loses is handed over once, by it or by a later one. -/
def LossesReported (hash : Bytes → UInt64) : List ((Nat → UInt8) × Op) → Cache → Prop
  | [], _ => True
  | op :: ops, c =>
      ∀ out c', c.exec hash op.1 op.2 = .ok (out, c') →
        (∀ k v, Lost hash c op.2 out c' k v →
          (out.evicted.getD [] ++ reports hash k ops c').count (k, v) = 1) ∧
        LossesReported hash ops c'

def Cache.step (hash : Bytes → UInt64) (c : Cache) (op : (Nat → UInt8) × Op) : Option Cache :=
  match c.exec hash op.1 op.2 with
  | .ok (_, c') => some c'
  | .error _ => none

theorem Effect.onEvict (heffect : Effect hash c last op out c') : c'.onEvict = c.onEvict := by
  cases heffect <;> rfl

/-- What a key no longer has is not handed over before it is written again. -/
theorem count_reports {ops : List ((Nat → UInt8) × Op)} {k v : Bytes}
    (hkeys : ∀ op ∈ ops, ∀ k, op.2.key = some k → k ∈ U) (hs : Sound hash U c last)
    (honEvict : c.onEvict = true) (hcur : c.current hash k ≠ some v) :
    (reports hash k ops c).count (k, v) = 0 := by
  induction ops generalizing c last with
  | nil => rfl
  | cons op ops ih =>
      obtain ⟨out, c', hexec, heffect⟩ := exec_effect hs.inv op.1 op.2
      have hkey := hkeys op List.mem_cons_self
      -- a write to `k` ends the search; otherwise the key still has nothing
      simp only [reports, hexec]
      cases hw : op.2.writes (c.current hash) out.result.isOk k with
      | true => rfl
      | false =>
          have hrest := ih (fun o ho ↦ hkeys o (List.mem_cons_of_mem op ho)) (hs.effect hkey heffect)
            (heffect.onEvict.trans honEvict)
            fun hcur' ↦ hcur (heffect.current_of_not_written hs hkey hw hcur')
          have hnow : (out.evicted.getD []).count (k, v) = 0 := by
            rw [heffect.count_evicted hs honEvict, if_neg fun h ↦ hcur h.2]
          rw [if_neg Bool.false_ne_true, List.count_append, hnow, hrest]

theorem Effect.reported_iff (hs : Sound hash U c last) (honEvict : c.onEvict = true)
    (hkey : ∀ k, op.key = some k → k ∈ U) (heffect : Effect hash c last op out c')
    (later : Bytes → Items)
    (hlater : ∀ k v, c'.current hash k ≠ some v → (later k).count (k, v) = 0) :
    (∀ k v, Lost hash c op out c' k v → (out.evicted.getD [] ++ later k).count (k, v) = 1) ↔
      NoOverrun hash c op := by
  -- a loss is reported by the operation itself, and that is a `Reset`, or never
  have hcount : ∀ k v, Lost hash c op out c' k v →
      (out.evicted.getD [] ++ later k).count (k, v) = if op.isReset = true then 1 else 0 := by
    intro k v hlost
    rw [List.count_append, hlater k v hlost.after, heffect.count_evicted hs honEvict]
    simp only [hlost.before, and_true, Nat.add_zero]
  apply Iff.intro
  · intro hall
    by_contra hover
    obtain ⟨hop, k, v, hlost⟩ := heffect.lost_of_overrun hs hkey hover
    have hzero := hall k v hlost
    rw [hcount k v hlost, hop] at hzero
    cases hzero
  · intro hover k v hlost
    rw [hcount k v hlost, if_pos (hlost.isReset hs hkey heffect hover)]

theorem Sound.lossesReported_iff {ops : List ((Nat → UInt8) × Op)}
    (hkeys : ∀ op ∈ ops, ∀ k, op.2.key = some k → k ∈ U) (hs : Sound hash U c last)
    (honEvict : c.onEvict = true) :
    LossesReported hash ops c ↔
      EveryStep (Cache.step hash) (fun c op ↦ NoOverrun hash c op.2) ops c := by
  induction ops generalizing c last with
  | nil => exact Iff.rfl
  | cons op ops ih =>
      obtain ⟨out, c', hexec, heffect⟩ := exec_effect hs.inv op.1 op.2
      have hkey := hkeys op List.mem_cons_self
      have hkeys' := fun o ho ↦ hkeys o (List.mem_cons_of_mem op ho)
      have hs' := hs.effect hkey heffect
      have honEvict' := heffect.onEvict.trans honEvict
      have hstep := heffect.reported_iff hs honEvict hkey (fun k ↦ reports hash k ops c')
        fun k v hcur ↦ count_reports hkeys' hs' honEvict' hcur
      have hrest := ih hkeys' hs' honEvict'
      have hnext : Cache.step hash c op = some c' := by rw [Cache.step, hexec]
      simp only [LossesReported, EveryStep, hexec, hnext, Except.ok.injEq, Prod.mk.injEq,
        Option.some.injEq]
      apply Iff.intro
      · rintro hall t rfl
        obtain ⟨hnow, hafter⟩ := hall out c' ⟨rfl, rfl⟩
        exact ⟨hstep.mp hnow, hrest.mp hafter⟩
      · rintro hall _ _ ⟨rfl, rfl⟩
        obtain ⟨hnow, hafter⟩ := hall c' rfl
        exact ⟨hstep.mpr hnow, hrest.mpr hafter⟩

theorem new_onEvict {maxBytes : Int64} {onEvict : Bool} (hnew : new maxBytes onEvict = .ok c) :
    c.onEvict = onEvict := by
  obtain ⟨n, -, -, rfl⟩ := new_eq hnew
  rfl

theorem new_sound {maxBytes : Int64} {onEvict : Bool} (hnew : new maxBytes onEvict = .ok c)
    (hinj : Set.InjOn hash U) : Sound hash U c fun _ ↦ none :=
  ⟨new_inv hnew, nofun, hinj⟩

theorem lossesReported_iff_noOverrun (hash : Bytes → UInt64) (maxBytes : Int64) (c : Cache)
    (hnew : new maxBytes true = .ok c) (ops : List ((Nat → UInt8) × Op))
    (hinj : Set.InjOn hash {k | ∃ op ∈ ops, op.2.key = some k}) :
    LossesReported hash ops c ↔
      EveryStep (Cache.step hash) (fun c op ↦ NoOverrun hash c op.2) ops c :=
  (new_sound hnew hinj).lossesReported_iff (fun op hop _ hk ↦ Exists.intro op ⟨hop, hk⟩)
    (new_onEvict hnew)

theorem lossesReported_set_reset : ∃ c, new 1 true = .ok c ∧
    LossesReported (fun k ↦ UInt64.ofNat k.length)
      [(fun _ ↦ 0, .set [1] [2]), (fun _ ↦ 0, .reset)] c := by
  refine ⟨_, rfl, (lossesReported_iff_noOverrun _ 1 _ rfl _ ?_).mpr ?_⟩
  · have hone : ∀ k, (∃ op ∈ [((fun _ ↦ 0 : Nat → UInt8), Op.set [1] [2]), (fun _ ↦ 0, .reset)],
        op.2.key = some k) → k = [1] := by
      simp [Op.key]
    intro k hk k' hk' _
    rw [hone k hk, hone k' hk']
  · intro t _
    refine ⟨fun _ _ _ _ h _ v hv ↦ ?_, fun _ _ ↦ ⟨nofun, trivial⟩⟩
    rw [Bucket.empty, AList.lookup_empty] at hv
    cases hv

/-! ## A value lost at a wrap -/

/-- Keys of different lengths have different hashes, all in the first bucket. -/
def lengthHash (k : Bytes) : UInt64 := UInt64.ofNat (512 * k.length)

theorem lengthHash_injOn : Set.InjOn lengthHash {[], [0]} := by
  rintro k (rfl | rfl) k' (rfl | rfl) heq
  · rfl
  · exact absurd heq (by decide)
  · exact absurd heq (by decide)
  · rfl

/-- The first entry of a new cache with one chunk to a bucket. -/
theorem first_entry {k val : Bytes} {b : Bucket} (hfits : kvLen k val < chunkSize)
    (hwrite : Written (Bucket.empty 1) b (lengthHash k) k val) :
    b.chunks.length = 1 ∧ b.idx = kvLen k val ∧
      b.m.lookup (lengthHash k) = some (packed 0 1) ∧ b.isLive (packed 0 1) = true := by
  have hplace : (Bucket.empty 1).place (kvLen k val) = ⟨0, false, false⟩ := by
    refine if_neg (Nat.not_lt.mpr ?_)
    change (0 + kvLen k val) / chunkSize ≤ 0
    rw [Nat.zero_add, Nat.div_eq_of_lt hfits]
  have hidx := hwrite.idx
  have hgen := hwrite.gen
  have hself := hwrite.self
  rw [hplace] at hidx hgen hself
  change b.gen = 1 at hgen
  rw [hgen] at hself
  rw [Nat.zero_add] at hidx
  refine ⟨hwrite.count, hidx, hself, (Bucket.isLive_iff b _).mpr (.inl ⟨?_, ?_⟩)⟩
  · rw [genOf_packed 1 (by decide), bGen_toNat, hgen]
  · rw [posOf_packed 1 (by decide), hidx, kvLen]
    omega

/-- Two entries that do not fit into one chunk. -/
theorem second_entry_unreported {val : Bytes} (hval : val.length = 40000) (junk : Nat → UInt8) :
    ∃ c, new 1 true = .ok c ∧ ∃ out₁ c₁ out₂ c₂,
      c.exec lengthHash junk (.set [] val) = .ok (out₁, c₁) ∧
      c₁.exec lengthHash junk (.set [0] val) = .ok (out₂, c₂) ∧
      Lost lengthHash c₁ (.set [0] val) out₂ c₂ [] val ∧
      (out₂.evicted.getD [] ++ reports lengthHash [] [(junk, .reset)] c₂).count ([], val) = 0 := by
  have hfits₁ : kvLen [] val < chunkSize := by simp [kvLen, hval, chunkSize]
  have hfits₂ : kvLen [0] val < chunkSize := by simp [kvLen, hval, chunkSize]
  have hnew : new 1 true = .ok ⟨fun _ ↦ Bucket.empty 1, true⟩ := rfl
  have hs := new_sound hnew lengthHash_injOn
  have hkey₁ : ∀ k, (Op.set [] val).key = some k → k ∈ ({[], [0]} : Set Bytes) := by
    rintro _ ⟨⟩
    exact .inl rfl
  have hkey₂ : ∀ k, (Op.set [0] val).key = some k → k ∈ ({[], [0]} : Set Bytes) := by
    rintro _ ⟨⟩
    exact .inr rfl
  obtain ⟨out₁, c₁, hexec₁, heffect₁⟩ := set_effect hs.inv junk [] val
  have hs₁ := hs.effect hkey₁ heffect₁
  have honEvict₁ : c₁.onEvict = true := heffect₁.onEvict
  obtain ⟨hok, b, hc₁, hwrite⟩ := heffect₁.written rfl hfits₁
  obtain ⟨hcount, hidx, hself, hlive⟩ := first_entry hfits₁ hwrite
  have hbucket : c₁.buckets (Cache.bucketIdx lengthHash []) = b := by rw [hc₁, setBucket_same]
  obtain ⟨out₂, c₂, hexec₂, heffect₂⟩ := set_effect hs₁.inv junk [0] val
  have hs₂ := hs₁.effect hkey₂ heffect₂
  have hlost : Lost lengthHash c₁ (.set [0] val) out₂ c₂ [] val := by
    apply heffect₂.lost_of_overruns hs₁ hkey₂ rfl hfits₂ (w := packed 0 1)
    · refine hs₁.current_iff.mpr ⟨?_, packed 0 1, ?_, ?_⟩
      · rw [hok, lastWrite_written rfl, Function.update_self]
      · rw [hbucket, hself]
      · rw [hbucket, hlive]
    · decide
    · decide
    · rw [hbucket, hself]
    · rw [hbucket, Bucket.overruns, hcount, hidx]
      simp [kvLen, hval, chunkSize, posOf_packed]
  refine ⟨_, hnew, out₁, c₁, out₂, c₂, hexec₁, hexec₂, hlost, ?_⟩
  rw [List.count_append, heffect₂.count_evicted hs₁ honEvict₁, count_reports (fun op hop k hk ↦ ?_)
    hs₂ (heffect₂.onEvict.trans honEvict₁) hlost.after]
  · rfl
  · rw [List.mem_singleton.mp hop] at hk
    cases hk

theorem overrun_unreported : ∃ c, new 1 true = .ok c ∧ Set.InjOn lengthHash {[], [0]} ∧
    ∃ out₁ c₁ out₂ c₂,
      c.exec lengthHash (fun _ ↦ 0) (.set [] (List.replicate 40000 0)) = .ok (out₁, c₁) ∧
      c₁.exec lengthHash (fun _ ↦ 0) (.set [0] (List.replicate 40000 0)) = .ok (out₂, c₂) ∧
      Lost lengthHash c₁ (.set [0] (List.replicate 40000 0)) out₂ c₂ [] (List.replicate 40000 0) ∧
      (out₂.evicted.getD [] ++ reports lengthHash [] [(fun _ ↦ 0, .reset)] c₂).count
        ([], List.replicate 40000 0) = 0 := by
  obtain ⟨c, hnew, hrun⟩ := second_entry_unreported List.length_replicate fun _ ↦ 0
  exact ⟨c, hnew, lengthHash_injOn, hrun⟩

end CommonLib.XCache
