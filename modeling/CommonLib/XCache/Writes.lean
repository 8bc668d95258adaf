import CommonLib.XCache.Ring

/-!
# Writing to a bucket

A write puts its entry behind the write index or, after a wrap, at the start of the ring.  It runs
over entries of the generation before that start below its end, and a wrap drops from the map what
is no longer live; everything else stays readable.
-/

namespace CommonLib.XCache

open CommonLib.Reasoning CommonLib.XError

variable {P P' : UInt64 → Bytes → Bytes → Prop} {b : Bucket}

/-- The bucket with an entry at position `s`, before the map is cleaned. -/
def withEntry (b : Bucket) (s : Nat) (gen h : UInt64) (k val : Bytes) (data : Nat → UInt8) :
    Bucket where
  chunks := b.chunks.set (s / chunkSize) (some
    ⟨writeAt data (s % chunkSize) (entryBytes k val),
      s % chunkSize + (4 + k.length + val.length)⟩)
  m := b.m.insert h (packed s gen)
  idx := s + (4 + k.length + val.length)
  gen := gen

section WithEntry

variable {s : Nat} {gen h : UInt64} {k val : Bytes} {data : Nat → UInt8}

theorem position_lt (hshape : Shape b) (hidx : s / chunkSize < b.chunks.length) : s < 2 ^ 40 := by
  have hle := hshape.count_le
  unfold chunkSize at *
  omega

theorem withEntry_shape (hshape : Shape b) (hidx : s / chunkSize < b.chunks.length)
    (hfits : s % chunkSize + (4 + k.length + val.length) < chunkSize)
    (hgen : gen.toNat % 2 ^ 24 ≠ 0) : Shape (withEntry b s gen h k val data) := by
  have hlen : (withEntry b s gen h k val data).chunks.length = b.chunks.length :=
    List.length_set ..
  have hsame : (withEntry b s gen h k val data).idx / chunkSize = s / chunkSize := by
    change (s + (4 + k.length + val.length)) / chunkSize = s / chunkSize
    unfold chunkSize at *
    omega
  have hmod : (withEntry b s gen h k val data).idx % chunkSize =
      s % chunkSize + (4 + k.length + val.length) := by
    change (s + (4 + k.length + val.length)) % chunkSize = _
    unfold chunkSize at *
    omega
  have hget : (withEntry b s gen h k val data).chunks[
      (withEntry b s gen h k val data).idx / chunkSize]? = some (some
        ⟨writeAt data (s % chunkSize) (entryBytes k val),
          s % chunkSize + (4 + k.length + val.length)⟩) := by
    rw [hsame]
    exact List.getElem?_set_self hidx
  refine ⟨?_, ?_, ?_, ?_, fun c hc ↦ ?_, fun hnil ↦ ?_⟩
  · rw [hlen]
    exact hshape.count_pos
  · rw [hlen]
    exact hshape.count_le
  · rw [bGen_toNat]
    exact hgen
  · rw [hlen]
    exact (Nat.div_lt_iff_lt_mul (by decide)).mp (hsame ▸ hidx)
  · rw [hget] at hc
    cases hc
    exact hmod.symm
  · rw [hget] at hnil
    cases hnil

theorem withEntry_self (hshape : Shape b) (hidx : s / chunkSize < b.chunks.length)
    (hfits : s % chunkSize + (4 + k.length + val.length) < chunkSize) (hP : P' h k val) :
    EntryOk P' (withEntry b s gen h k val data) h (packed s gen) := by
  have hs := position_lt hshape hidx
  refine .inl ⟨?_, k, val, hP, ?_, ?_⟩
  · rw [genOf_packed gen hs, bGen_toNat]
    rfl
  · rw [posOf_packed gen hs]
    exact Record.new data hidx hfits
  · rw [posOf_packed gen hs]
    exact le_rfl

/-- In the same generation the entries before the write index and those at or above the new one
stay as they are. -/
theorem withEntry_other {h' v : UInt64} (hle : b.idx ≤ s) (hover : Over b.chunks (s / chunkSize) data)
    (hP : ∀ k val, P h' k val → P' h' k val) (hok : EntryOk P b h' v) :
    EntryOk P' (withEntry b s b.gen h k val data) h' v := by
  rcases hok with ⟨hgen, k', val', hPk, hrec, hend⟩ | ⟨hprev, hne, hrec⟩
  · refine .inl ⟨hgen, k', val', hP k' val' hPk, hrec.set hover (.inl (by omega)), ?_⟩
    change posOf v + (4 + k'.length + val'.length) ≤ s + (4 + k.length + val.length)
    omega
  · refine .inr ⟨hprev, hne, fun hge ↦ ?_⟩
    change s + (4 + k.length + val.length) ≤ posOf v at hge
    obtain ⟨k', val', hPk, hrec⟩ := hrec (by omega)
    exact ⟨k', val', hP k' val' hPk,
      hrec.set hover (.inr (by rw [length_entryBytes]; exact hge))⟩

/-- After a wrap an entry that is still live is one of the generation that has ended. -/
theorem withEntry_wrapped {h' v : UInt64} (hgen : b.bGen.toNat ≠ 0)
    (hover : Over b.chunks (0 / chunkSize) data) (hP : ∀ k val, P h' k val → P' h' k val)
    (hok : EntryOk P b h' v)
    (hlive : (withEntry b 0 b.nextGen h k val data).isLive v = true) :
    EntryOk P' (withEntry b 0 b.nextGen h k val data) h' v ∧ b.isLive v = true := by
  obtain ⟨hnext, hnz⟩ := b.nextGen_spec
  have hbound : b.bGen.toNat < 2 ^ 24 := by rw [bGen_toNat]; omega
  have hnew : (withEntry b 0 b.nextGen h k val data).bGen.toNat = b.nextGen.toNat % 2 ^ 24 :=
    bGen_toNat _
  rw [Bucket.isLive_iff, hnew] at hlive
  change _ ∨ _ ∧ 0 + (4 + k.length + val.length) ≤ posOf v at hlive
  unfold PrevGen at hnext hlive
  -- an entry of the generation before the last is not live after the wrap
  rcases hok with ⟨heq, k', val', hPk, hrec, hend⟩ | ⟨hprev, hne, hrec⟩
  · have hge : 0 + (4 + k.length + val.length) ≤ posOf v := by omega
    refine ⟨.inr ⟨?_, by omega, fun _ ↦ ⟨k', val', hP k' val' hPk, ?_⟩⟩, ?_⟩
    · rw [hnew, heq]
      exact hnext
    · exact hrec.set hover (.inr (by rw [length_entryBytes]; exact hge))
    · rw [Bucket.isLive_iff]
      exact .inl ⟨heq, by omega⟩
  · unfold PrevGen at hprev
    omega

end WithEntry

/-! ## The value to store -/

/-- What `v` holds when the entry for `k` is written: its own bytes, or a part of the value that is
live under `k`. -/
def Source.Holds (b : Bucket) (k : Bytes) (val : Bytes) : Source → Prop
  | .own bytes => bytes = val
  | .ring chunkIdx off len => ∃ p cur a, Record b.chunks p k cur ∧
      (p + (4 + k.length + cur.length) ≤ b.idx ∨ b.idx ≤ p) ∧ chunkIdx = p / chunkSize ∧
      off = p % chunkSize + 4 + k.length + a ∧ a + len ≤ cur.length ∧ val = (cur.drop a).take len

theorem Source.Holds.length_eq {k val : Bytes} {v : Source} (h : v.Holds b k val) :
    v.length = val.length := by
  cases v with
  | own bytes => exact congrArg List.length h
  | ring chunkIdx off len =>
      obtain ⟨p, cur, a, -, -, -, -, hle, rfl⟩ := h
      rw [List.length_take, List.length_drop, Source.length]
      omega

/-- The header and the key are written before the value is copied; they do not reach it, since the
entry it is part of has the same key and lies before the new one or does not start below it. -/
theorem Source.Holds.read {k val : Bytes} {v : Source} (h : v.Holds b k val) {p : Bucket.Placement}
    (hfresh : p.fresh = true → p.start % chunkSize = 0) (hidx : p.fresh = false → p.start = b.idx)
    {data : Nat → UInt8} {n : Nat} (hover : Over b.chunks (p.start / chunkSize) data) :
    v.read (b.chunks.set (p.start / chunkSize) (some ⟨writeAt data (p.start % chunkSize)
      (kvLenBuf k.length v.length ++ k), n⟩)) = val := by
  cases v with
  | own bytes => exact h
  | ring chunkIdx off len =>
      obtain ⟨pos, cur, a, hrec, hapart, rfl, rfl, hle, rfl⟩ := h
      obtain ⟨chunk, hchunk, hbytes⟩ := hrec.bytes
      obtain ⟨-, -, hval⟩ := Record.windows hbytes
      have hsub : window chunk.data (pos % chunkSize + 4 + k.length + a) len =
          (cur.drop a).take len := by rw [← window_sub chunk.data hle, hval]
      rw [Source.read]
      by_cases hsame : p.start / chunkSize = pos / chunkSize
      · have hget := List.getElem?_eq_some_iff.mp hchunk
        rw [hsame, List.getElem?_set_self hget.1]
        dsimp only
        rw [window_writeAt_disjoint, hover chunk (hsame ▸ hchunk), hsub]
        simp only [List.length_append, kvLenBuf, List.length_cons, List.length_nil]
        -- in a fresh chunk the new entry starts at offset 0, otherwise at the write index
        have hstart : pos + (4 + k.length + cur.length) ≤ p.start ∨ p.start ≤ pos := by
          cases hf : p.fresh with
          | true =>
              have := hfresh hf
              unfold chunkSize at *
              omega
          | false => rw [hidx hf]; exact hapart
        unfold chunkSize at *
        omega
      · rw [List.getElem?_set_ne hsame, hchunk]
        exact hsub

/-! ## Cleaning the map -/

theorem readItems_dead {vs : List UInt64} (h : ∀ v ∈ vs, b.isLive v = false) :
    b.readItems vs = .ok [] := by
  induction vs with
  | nil => rfl
  | cons v vs ih =>
      rw [Bucket.readItems, readItem_of_not_live (h v List.mem_cons_self),
        ih fun v' hv ↦ h v' (List.mem_cons_of_mem v hv)]
      rfl

/-- What the wrap drops from the map can no longer be read, so nothing of it is handed over. -/
theorem evicted_eq (b : Bucket) (onEvict : Bool) :
    ∃ items, b.evicted onEvict = .ok items ∧ items.getD [] = [] := by
  unfold Bucket.evicted
  dsimp only
  split
  · refine ⟨some [], ?_, rfl⟩
    rw [readItems_dead]
    · rfl
    · intro v hv
      obtain ⟨e, he, rfl⟩ := List.mem_map.mp (List.mem_dedup.mp hv)
      have hkeeps := (List.mem_filter.mp he).2
      rw [← Bucket.keeps_eq_isLive]
      simpa using hkeeps
  · exact ⟨none, rfl, rfl⟩

theorem cleanLocked_eq {h v : UInt64} (hlookup : b.m.lookup h = some v) (hlive : b.isLive v = true)
    (onEvict : Bool) : ∃ items, items.getD [] = [] ∧
      b.cleanLocked onEvict = .ok (items, { b with m := b.m.filter b.isLive }) := by
  obtain ⟨items, hevicted, hnil⟩ := evicted_eq b onEvict
  have hkeeps : b.keeps = b.isLive := funext (Bucket.keeps_eq_isLive b)
  refine ⟨items, hnil, ?_⟩
  -- `cleanLocked` keeps the old map if the new one would be empty; the new entry is in it
  have hsize : (b.m.filter b.isLive).size ≠ 0 := by
    intro hzero
    have hnone := GoMap.size_eq_zero_iff.mp hzero h
    rw [GoMap.lookup_filter_eq_some.mpr ⟨hlookup, hlive⟩] at hnone
    cases hnone
  rw [Bucket.cleanLocked, hkeeps, hevicted]
  change Except.ok (items, if (b.m.filter b.isLive).size = 0 then b else _) = _
  rw [if_neg hsize]

/-! ## A write -/

def kvLen (k val : Bytes) : Nat := 4 + k.length + val.length

theorem kvLen_pos (k val : Bytes) : 0 < kvLen k val := by
  unfold kvLen
  omega

/-- A write of `val` under `k` took `b` to `b'`. -/
structure Written (b b' : Bucket) (h : UInt64) (k val : Bytes) : Prop where
  count : b'.chunks.length = b.chunks.length
  idx : b'.idx = (b.place (kvLen k val)).start + kvLen k val
  gen : b'.gen = if (b.place (kvLen k val)).wraps then b.nextGen else b.gen
  self : b'.m.lookup h = some (packed (b.place (kvLen k val)).start b'.gen)
  sub : ∀ h' ≠ h, ∀ v, b'.m.lookup h' = some v → b.m.lookup h' = some v
  keep : ∀ h' ≠ h, ∀ v, b.m.lookup h' = some v → b'.isLive v = true → b'.m.lookup h' = some v
  back : ∀ h' ≠ h, ∀ v, b.m.lookup h' = some v → b'.isLive v = true → b.isLive v = true

theorem withEntry_live (hshape : Shape b) {s : Nat} (hidx : s / chunkSize < b.chunks.length)
    (gen h : UInt64) (k val : Bytes) (data : Nat → UInt8) :
    (withEntry b s gen h k val data).isLive (packed s gen) = true := by
  have hs := position_lt hshape hidx
  rw [Bucket.isLive_iff]
  refine .inl ⟨?_, ?_⟩
  · rw [genOf_packed gen hs, bGen_toNat]
    rfl
  · rw [posOf_packed gen hs]
    change s < s + (4 + k.length + val.length)
    omega

theorem lookup_withEntry_of_ne {s : Nat} {gen h h' : UInt64} {k val : Bytes} {data : Nat → UInt8}
    (hne : h' ≠ h) : (withEntry b s gen h k val data).m.lookup h' = b.m.lookup h' :=
  AList.lookup_insert_ne hne

/-- Without a wrap. -/
theorem Inv.append (hinv : Inv P b) {s : Nat} {h : UInt64} {k val : Bytes} {data : Nat → UInt8}
    (hidx : s / chunkSize < b.chunks.length)
    (hfits : s % chunkSize + (4 + k.length + val.length) < chunkSize) (hle : b.idx ≤ s)
    (hover : Over b.chunks (s / chunkSize) data)
    (hP : ∀ h' ≠ h, ∀ k val, P h' k val → P' h' k val) (hnew : P' h k val) :
    Inv P' (withEntry b s b.gen h k val data) := by
  refine ⟨withEntry_shape hinv.shape hidx hfits (bGen_toNat b ▸ hinv.shape.gen), fun h' v hv ↦ ?_⟩
  by_cases hh : h' = h
  · subst hh
    rw [withEntry, AList.lookup_insert] at hv
    cases hv
    exact withEntry_self hinv.shape hidx hfits hnew
  · rw [lookup_withEntry_of_ne hh] at hv
    exact withEntry_other hle hover (hP h' hh) (hinv.entry h' v hv)

/-- With a wrap, after cleaning. -/
theorem Inv.wrap (hinv : Inv P b) {h : UInt64} {k val : Bytes} {data : Nat → UInt8}
    (hfits : 4 + k.length + val.length < chunkSize)
    (hover : Over b.chunks (0 / chunkSize) data)
    (hP : ∀ h' ≠ h, ∀ k val, P h' k val → P' h' k val) (hnew : P' h k val) :
    Inv P' { withEntry b 0 b.nextGen h k val data with
      m := (withEntry b 0 b.nextGen h k val data).m.filter
        (withEntry b 0 b.nextGen h k val data).isLive } := by
  have hidx : 0 / chunkSize < b.chunks.length := hinv.shape.count_pos
  have hfits' : 0 % chunkSize + (4 + k.length + val.length) < chunkSize := by
    rw [Nat.zero_mod, Nat.zero_add]
    exact hfits
  refine ⟨(withEntry_shape hinv.shape hidx hfits' b.nextGen_spec.2).withMap _, fun h' v hv ↦ ?_⟩
  obtain ⟨hlookup, hlive⟩ := GoMap.lookup_filter_eq_some.mp hv
  by_cases hh : h' = h
  · subst hh
    rw [withEntry, AList.lookup_insert] at hlookup
    cases hlookup
    exact withEntry_self hinv.shape hidx hfits' hnew
  · rw [lookup_withEntry_of_ne hh] at hlookup
    exact (withEntry_wrapped hinv.shape.gen hover (hP h' hh) (hinv.entry h' v hlookup) hlive).1

theorem Inv.append_written (hinv : Inv P b) {s : Nat} {h : UInt64} {k val : Bytes}
    {data : Nat → UInt8} (hle : b.idx ≤ s) (hplace : (b.place (kvLen k val)).start = s)
    (hwraps : (b.place (kvLen k val)).wraps = false) :
    Written b (withEntry b s b.gen h k val data) h k val where
  count := List.length_set ..
  idx := by rw [hplace]; rfl
  gen := by rw [hwraps]; rfl
  self := by
    rw [hplace]
    exact AList.lookup_insert ..
  sub h' hne v hv := by rwa [lookup_withEntry_of_ne hne] at hv
  keep h' hne v hv _ := by rwa [lookup_withEntry_of_ne hne]
  back h' _ v hv hlive := by
    rw [Bucket.isLive_iff] at hlive ⊢
    change _ ∨ _ ∧ s + (4 + k.length + val.length) ≤ posOf v at hlive
    rcases hinv.entry h' v hv with ⟨hgen, k', val', -, -, hend⟩ | ⟨hprev, -, -⟩
    · exact .inl ⟨hgen, by omega⟩
    · rcases hlive with ⟨hgen, -⟩ | ⟨-, hge⟩
      · change (genOf v).toNat = b.bGen.toNat at hgen
        unfold PrevGen at hprev
        omega
      · exact .inr ⟨hprev, by omega⟩

theorem Inv.wrap_written (hinv : Inv P b) {h : UInt64} {k val : Bytes} {data : Nat → UInt8}
    (hover : Over b.chunks (0 / chunkSize) data)
    (hplace : (b.place (kvLen k val)).start = 0) (hwraps : (b.place (kvLen k val)).wraps = true) :
    Written b { withEntry b 0 b.nextGen h k val data with
      m := (withEntry b 0 b.nextGen h k val data).m.filter
        (withEntry b 0 b.nextGen h k val data).isLive } h k val := by
  have hidx : 0 / chunkSize < b.chunks.length := hinv.shape.count_pos
  have hback : ∀ h' ≠ h, ∀ v, b.m.lookup h' = some v →
      (withEntry b 0 b.nextGen h k val data).isLive v = true → b.isLive v = true :=
    fun h' _ v hv hlive ↦ (withEntry_wrapped hinv.shape.gen hover
      (fun k val (hp : P h' k val) ↦ hp) (hinv.entry h' v hv) hlive).2
  refine ⟨List.length_set .., by rw [hplace]; rfl, by rw [hwraps]; rfl, ?_, fun h' hne v hv ↦ ?_,
    fun h' hne v hv hlive ↦ ?_, hback⟩
  · rw [hplace]
    exact GoMap.lookup_filter_eq_some.mpr ⟨AList.lookup_insert ..,
      withEntry_live hinv.shape hidx b.nextGen h k val data⟩
  · rw [← lookup_withEntry_of_ne hne]
    exact (GoMap.lookup_filter_eq_some.mp hv).1
  · refine GoMap.lookup_filter_eq_some.mpr ⟨?_, hlive⟩
    rw [lookup_withEntry_of_ne hne]
    exact hv

theorem Inv.store (hinv : Inv P b) {k val : Bytes} {v : Source} {h : UInt64} (junk : Nat → UInt8)
    (onEvict : Bool) (hfits : kvLen k val < chunkSize) (hholds : v.Holds b k val)
    (hP : ∀ h' ≠ h, ∀ k val, P h' k val → P' h' k val) (hnew : P' h k val) :
    ∃ items b', b.store junk k v h onEvict = .ok (items, b') ∧ items.getD [] = [] ∧ Inv P' b' ∧
      Written b b' h k val := by
  have hlen : 4 + k.length + v.length = kvLen k val := by rw [hholds.length_eq, kvLen]
  obtain ⟨hidx, hend, hfresh, hsame, hwrap, hnowrap⟩ :=
    Bucket.place_spec hinv.shape.count_pos hinv.shape.idx hfits
  obtain ⟨data, hover, hwrite⟩ := writeEntry_spec junk hidx hend hfresh
    (fun c hc hf ↦ by
      rw [hsame hf] at hc ⊢
      exact hinv.shape.len c hc)
    (fun hnil ↦ by
      cases hf : (b.place (kvLen k val)).fresh with
      | true => exact hfresh hf
      | false =>
          rw [hsame hf] at hnil ⊢
          exact hinv.shape.nil hnil)
    hholds.length_eq (fun data n hover ↦ hholds.read hfresh hsame hover)
  -- the entry goes behind the last one, or back to the start of the ring
  cases hw : (b.place (kvLen k val)).wraps with
  | false =>
      refine ⟨none, withEntry b (b.place (kvLen k val)).start b.gen h k val data, ?_, rfl,
        hinv.append hidx hend (hnowrap hw) hover hP hnew,
        hinv.append_written (hnowrap hw) rfl hw⟩
      unfold Bucket.store
      simp only [hlen, hw, hwrite, bind, Except.bind, Bool.false_eq_true, if_false]
      rfl
  | true =>
      have hzero := hwrap hw
      rw [hzero] at hover hwrite
      obtain ⟨items, hnil, hclean⟩ := cleanLocked_eq (AList.lookup_insert ..)
        (withEntry_live hinv.shape (s := 0) hinv.shape.count_pos b.nextGen h k val data) onEvict
      refine ⟨items, _, ?_, hnil, hinv.wrap hfits hover hP hnew,
        hinv.wrap_written hover hzero hw⟩
      unfold Bucket.store
      simp only [hlen, hw, hwrite, bind, Except.bind, if_true, hzero]
      exact hclean

/-- A write succeeds exactly if the entry is shorter than a chunk. -/
theorem Inv.setLocked (hinv : Inv P b) {k val : Bytes} {v : Source} {h : UInt64}
    (junk : Nat → UInt8) (onEvict : Bool) (hholds : v.Holds b k val)
    (hP : ∀ h' ≠ h, ∀ k val, P h' k val → P' h' k val) (hnew : P' h k val) :
    (∃ items b', b.setLocked junk k v h onEvict = .ok (⟨.ok (), items⟩, b') ∧
      kvLen k val < chunkSize ∧ items.getD [] = [] ∧ Inv P' b' ∧ Written b b' h k val) ∨
    ∃ e, b.setLocked junk k v h onEvict = .ok (⟨.error e, none⟩, b) ∧
      chunkSize ≤ kvLen k val := by
  have hlen := hholds.length_eq
  have hmax : maxKeyLen = chunkSize := rfl
  unfold Bucket.setLocked kvLen
  by_cases hk : k.length ≥ maxKeyLen
  · rw [if_pos hk]
    exact .inr ⟨_, rfl, by omega⟩
  rw [if_neg hk]
  by_cases hv : v.length ≥ maxKeyLen
  · rw [if_pos hv]
    exact .inr ⟨_, rfl, by omega⟩
  rw [if_neg hv]
  by_cases hkv : 4 + k.length + v.length ≥ chunkSize
  · rw [if_pos hkv]
    exact .inr ⟨_, rfl, by omega⟩
  · rw [if_neg hkv]
    have hfits : kvLen k val < chunkSize := by
      unfold kvLen
      omega
    obtain ⟨items, b', hstore, hnil, hinv', hwritten⟩ :=
      hinv.store junk onEvict hfits hholds hP hnew
    refine .inl ⟨items, b', ?_, hfits, hnil, hinv', hwritten⟩
    rw [hstore]
    rfl

/-- A write that succeeds has passed the checks of the lengths. -/
theorem setLocked_eq_ok {k : Bytes} {v : Source} {h : UInt64} {junk : Nat → UInt8} {onEvict : Bool}
    {items : Option Items} {b' : Bucket}
    (hset : b.setLocked junk k v h onEvict = .ok (⟨.ok (), items⟩, b')) :
    4 + k.length + v.length < chunkSize ∧ b.store junk k v h onEvict = .ok (items, b') := by
  unfold Bucket.setLocked at hset
  split at hset
  · cases hset
  split at hset
  · cases hset
  split at hset
  · cases hset
  next hfits =>
    cases hstore : b.store junk k v h onEvict with
    | error crash =>
        rw [hstore] at hset
        cases hset
    | ok r =>
        rw [hstore] at hset
        cases hset
        exact ⟨Nat.lt_of_not_le hfits, rfl⟩

end CommonLib.XCache
