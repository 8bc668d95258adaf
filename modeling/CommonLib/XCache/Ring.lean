import CommonLib.XCache.Cache

/-!
# The ring of a bucket

Every entry the map points to belongs to the current generation or to the one before it.  Those of
the current generation end below the write index; those of the one before are intact as long as
they start at or above it.
-/

namespace CommonLib.XCache

open CommonLib.Reasoning CommonLib.XError

/-! ## Positions and generations -/

theorem maxGen_toNat : maxGen.toNat = 16777215 := by decide

theorem bGen_toNat (b : Bucket) : b.bGen.toNat = b.gen.toNat % 2 ^ 24 := by
  rw [Bucket.bGen, UInt64.toNat_and, maxGen_toNat]
  exact Nat.and_two_pow_sub_one_eq_mod _ 24

theorem packed_toNat {idx : Nat} (gen : UInt64) (h : idx < 2 ^ 40) :
    (packed idx gen).toNat = gen.toNat % 2 ^ 24 * 2 ^ 40 + idx := by
  have hshift : (gen <<< bucketSizeBits).toNat = gen.toNat % 2 ^ 24 * 2 ^ 40 := by
    rw [UInt64.toNat_shiftLeft]
    change gen.toNat <<< 40 % 2 ^ 64 = _
    rw [Nat.shiftLeft_eq]
    omega
  rw [packed, UInt64.toNat_or, hshift, UInt64.toNat_ofNat_of_lt' (lt_trans h (by decide)), Nat.lor_comm,
    Nat.mul_comm, ← Nat.two_pow_add_eq_or_of_lt h]

theorem genOf_toNat (v : UInt64) : (genOf v).toNat = v.toNat / 2 ^ 40 := by
  rw [genOf, UInt64.toNat_shiftRight]
  change v.toNat >>> 40 = _
  rw [Nat.shiftRight_eq_div_pow]

theorem posOf_eq (v : UInt64) : posOf v = v.toNat % 2 ^ 40 := by
  rw [posOf, UInt64.toNat_and, show (maxBucketSize - 1).toNat = 2 ^ 40 - 1 by decide]
  exact Nat.and_two_pow_sub_one_eq_mod _ 40

theorem genOf_packed {idx : Nat} (gen : UInt64) (h : idx < 2 ^ 40) :
    (genOf (packed idx gen)).toNat = gen.toNat % 2 ^ 24 := by
  rw [genOf_toNat, packed_toNat gen h]
  omega

theorem posOf_packed {idx : Nat} (gen : UInt64) (h : idx < 2 ^ 40) :
    posOf (packed idx gen) = idx := by
  rw [posOf_eq, packed_toNat gen h]
  omega

/-- Generation `g` comes right before `c`; they are counted from 1 to `maxGen`. -/
def PrevGen (g c : Nat) : Prop := g + 1 = c ∨ g = 16777215 ∧ c = 1

namespace Bucket

theorem isLive_iff (b : Bucket) (v : UInt64) :
    b.isLive v = true ↔ (genOf v).toNat = b.bGen.toNat ∧ posOf v < b.idx ∨
      PrevGen (genOf v).toNat b.bGen.toNat ∧ b.idx ≤ posOf v := by
  have hgen : (genOf v).toNat < 2 ^ 24 := by
    have hv := v.toNat_lt
    rw [genOf_toNat]
    omega
  -- a generation has 24 bits, so its successor does not overflow
  have hsucc : (genOf v + 1).toNat = (genOf v).toNat + 1 := by
    rw [UInt64.toNat_add, show (1 : UInt64).toNat = 1 from rfl]
    omega
  unfold isLive PrevGen
  simp only [Bool.or_eq_true, Bool.and_eq_true, beq_iff_eq, decide_eq_true_eq,
    ← UInt64.toNat_inj, hsucc, maxGen_toNat, show (1 : UInt64).toNat = 1 from rfl]
  tauto

theorem keeps_eq_isLive (b : Bucket) (v : UInt64) : b.keeps v = b.isLive v := by
  unfold keeps isLive
  cases genOf v == b.bGen <;> cases genOf v + 1 == b.bGen <;>
    cases genOf v == maxGen && b.bGen == 1 <;> cases decide (posOf v ≥ b.idx) <;>
    cases decide (posOf v < b.idx) <;> rfl

theorem nextGen_spec (b : Bucket) :
    PrevGen b.bGen.toNat (b.nextGen.toNat % 2 ^ 24) ∧ b.nextGen.toNat % 2 ^ 24 ≠ 0 := by
  have hgen := b.gen.toNat_lt
  have hone : (1 : UInt64).toNat = 1 := rfl
  have hsucc : (b.gen + 1).toNat = (b.gen.toNat + 1) % 2 ^ 64 := by rw [UInt64.toNat_add, hone]
  have hand : ((b.gen + 1) &&& maxGen).toNat = (b.gen + 1).toNat % 2 ^ 24 := by
    rw [UInt64.toNat_and, maxGen_toNat]
    exact Nat.and_two_pow_sub_one_eq_mod _ 24
  rw [bGen_toNat]
  unfold nextGen PrevGen
  split
  · rename_i hzero
    -- the next generation would be 0, which stands for an absent entry: it is skipped
    rw [hzero, hsucc, UInt64.toNat_zero] at hand
    rw [UInt64.toNat_add, hsucc, hone]
    omega
  · rename_i hzero
    have hne : ((b.gen + 1) &&& maxGen).toNat ≠ 0 := fun h0 ↦ hzero (UInt64.toNat_inj.mp h0)
    rw [hand, hsucc] at hne
    rw [hsucc]
    omega

/-! ## Placement -/

theorem place_spec {b : Bucket} {kvLen : Nat} (hcount : 0 < b.chunks.length)
    (hidx : b.idx < b.chunks.length * chunkSize) (hlen : kvLen < chunkSize) :
    (b.place kvLen).start / chunkSize < b.chunks.length ∧
      (b.place kvLen).start % chunkSize + kvLen < chunkSize ∧
      ((b.place kvLen).fresh = true → (b.place kvLen).start % chunkSize = 0) ∧
      ((b.place kvLen).fresh = false → (b.place kvLen).start = b.idx) ∧
      ((b.place kvLen).wraps = true → (b.place kvLen).start = 0) ∧
      ((b.place kvLen).wraps = false → b.idx ≤ (b.place kvLen).start) := by
  unfold place
  dsimp only
  unfold chunkSize at *
  split
  · split
    · simp; omega
    · simp; omega
  · simp; omega

end Bucket

/-! ## Entries in the ring -/

def entryBytes (k val : Bytes) : Bytes := kvLenBuf k.length val.length ++ (k ++ val)

theorem length_entryBytes (k val : Bytes) :
    (entryBytes k val).length = 4 + k.length + val.length := by
  simp only [entryBytes, List.length_append, kvLenBuf, List.length_cons, List.length_nil]
  omega

/-- The entry for `k` and `val` is in the ring at position `p`. -/
structure Record (chunks : List (Option Chunk)) (p : Nat) (k val : Bytes) : Prop where
  fits : p % chunkSize + (4 + k.length + val.length) < chunkSize
  bytes : ∃ chunk, chunks[p / chunkSize]? = some (some chunk) ∧
    window chunk.data (p % chunkSize) (4 + k.length + val.length) = entryBytes k val

theorem lenOf_kvLenBuf {n : Nat} (h : n < 65536) :
    lenOf (UInt16.ofNat n >>> 8).toUInt8 (UInt8.ofNat n) = n := by
  have hhi : (UInt16.ofNat n >>> 8).toUInt8.toNat = n / 256 := by
    rw [UInt16.toNat_toUInt8, UInt16.toNat_shiftRight, UInt16.toNat_ofNat_of_lt' h]
    change n >>> 8 % 256 = _
    rw [Nat.shiftRight_eq_div_pow]
    omega
  have hlo : (UInt8.ofNat n).toNat = n % 256 := UInt8.toNat_ofNat'
  rw [lenOf, UInt64.toNat_or, UInt64.toNat_shiftLeft, UInt8.toNat_toUInt64, UInt8.toNat_toUInt64,
    hhi, hlo]
  change (n / 256) <<< 8 % 2 ^ 64 ||| n % 256 = n
  rw [Nat.shiftLeft_eq, Nat.mod_eq_of_lt (by omega), Nat.mul_comm,
    ← Nat.two_pow_add_eq_or_of_lt (by omega)]
  omega

/-- The parts of an entry's window. -/
theorem Record.windows {chunk : Chunk} {off : Nat} {k val : Bytes}
    (h : window chunk.data off (4 + k.length + val.length) = entryBytes k val) :
    window chunk.data off 4 = kvLenBuf k.length val.length ∧
      window chunk.data (off + 4) k.length = k ∧
      window chunk.data (off + 4 + k.length) val.length = val := by
  rw [Nat.add_assoc, window_add, window_add, entryBytes] at h
  obtain ⟨hhead, htail⟩ := List.append_inj h (by simp [kvLenBuf])
  obtain ⟨hkey, hval⟩ := List.append_inj htail (length_window ..)
  exact ⟨hhead, hkey, hval⟩

theorem Record.locate {b : Bucket} {v : UInt64} {k val : Bytes} (hlive : b.isLive v = true)
    (h : Record b.chunks (posOf v) k val) :
    ∃ chunk : Chunk, b.locate v = .ok (.ok ⟨posOf v / chunkSize, chunk, posOf v % chunkSize + 4,
        k.length, val.length⟩) ∧
      window chunk.data (posOf v % chunkSize + 4) k.length = k ∧
      window chunk.data (posOf v % chunkSize + 4 + k.length) val.length = val := by
  obtain ⟨chunk, hchunk, hbytes⟩ := h.bytes
  obtain ⟨hhead, hkey, hval⟩ := Record.windows hbytes
  have hfits := h.fits
  have hsize : chunkSize = 65536 := rfl
  refine ⟨chunk, ?_, hkey, hval⟩
  have hslice : slice (some chunk) (posOf v % chunkSize) 4 = .ok (kvLenBuf k.length val.length) := by
    rw [slice, if_pos (by omega), hhead]
  unfold Bucket.locate
  dsimp only
  rw [hlive, hchunk]
  dsimp only
  rw [if_neg (by simp), if_neg (by omega), hslice]
  -- both lengths fit in their two bytes, since the entry fits in a chunk
  have hk : lenOf ((kvLenBuf k.length val.length).getD 0 0)
      ((kvLenBuf k.length val.length).getD 1 0) = k.length := lenOf_kvLenBuf (by omega)
  have hv : lenOf ((kvLenBuf k.length val.length).getD 2 0)
      ((kvLenBuf k.length val.length).getD 3 0) = val.length := lenOf_kvLenBuf (by omega)
  rw [Except.map, hk, hv, if_neg (by omega)]

theorem readItem_of_record {b : Bucket} {v : UInt64} {k val : Bytes} (hlive : b.isLive v = true)
    (h : Record b.chunks (posOf v) k val) : b.readItem v = .ok (.ok (k, val)) := by
  obtain ⟨chunk, hlocate, hkey, hval⟩ := h.locate hlive
  have hfits := h.fits
  rw [Bucket.readItem, hlocate]
  simp only [bind, Except.bind, slice]
  rw [if_pos (by omega), hkey]
  dsimp only
  rw [if_pos (by omega), hval]
  rfl

theorem readItem_of_not_live {b : Bucket} {v : UInt64} (h : b.isLive v = false) :
    b.readItem v = .ok (.error errNoData) := by
  rw [Bucket.readItem, Bucket.locate, h]
  rfl

theorem getLocked_of_record {b : Bucket} {h v : UInt64} {k val : Bytes}
    (hlookup : b.m.lookup h = some v) (hne : v ≠ 0) (hlive : b.isLive v = true)
    (hrec : Record b.chunks (posOf v) k val) (k' : Bytes) :
    b.getLocked k' h = if k' = k then
        .ok (.ok ⟨posOf v / chunkSize, posOf v % chunkSize + 4 + k.length, val⟩)
      else .ok (.error errNoData) := by
  obtain ⟨chunk, hlocate, hkey, hval⟩ := hrec.locate hlive
  have hfits := hrec.fits
  unfold Bucket.getLocked
  simp only [hlookup, Option.getD_some, if_neg hne, hlocate, bind, Except.bind, slice]
  rw [if_pos (by omega), hkey]
  dsimp only
  split
  · rw [if_pos (by omega), hval]
    rfl
  · rfl

/-! ## Writing an entry -/

theorem Chunk.append_ok {chunk : Chunk} {bs : Bytes} (h : chunk.len + bs.length ≤ chunkSize) :
    chunk.append bs = .ok ⟨writeAt chunk.data chunk.len bs, chunk.len + bs.length⟩ := if_pos h

/-- The memory an entry is written to: that of the chunk, if there is one. -/
def Over (chunks : List (Option Chunk)) (i : Nat) (data : Nat → UInt8) : Prop :=
  ∀ c, chunks[i]? = some (some c) → data = c.data

/-- The slice the appends start from ends at the entry's offset. -/
theorem openChunk_spec {chunks : List (Option Chunk)} {i off : Nat} (junk : Nat → UInt8)
    {fresh : Bool} (hidx : i < chunks.length) (hfresh : fresh = true → off = 0)
    (hlen : ∀ c, chunks[i]? = some (some c) → fresh = false → c.len = off)
    (hnil : chunks[i]? = some none → off = 0) :
    ∃ slot data, chunks[i]? = some slot ∧ Over chunks i data ∧
      openChunk slot junk fresh = ⟨data, off⟩ := by
  have hget := List.getElem?_eq_getElem hidx
  cases hslot : chunks[i] with
  | none =>
      rw [hslot] at hget
      refine ⟨none, junk, hget, fun c hc ↦ ?_, ?_⟩
      · rw [hget] at hc
        cases hc
      · rw [openChunk, hnil hget]
  | some c =>
      rw [hslot] at hget
      refine ⟨some c, c.data, hget, fun c' hc ↦ ?_, ?_⟩
      · rw [hget] at hc
        cases hc
        rfl
      · cases fresh with
        | true => rw [openChunk, if_pos rfl, hfresh rfl]
        | false => rw [openChunk, if_neg Bool.false_ne_true, ← hlen c hget rfl]

theorem writeEntry_spec {chunks : List (Option Chunk)} {p : Bucket.Placement} {k val : Bytes}
    {v : Source} (junk : Nat → UInt8) (hidx : p.start / chunkSize < chunks.length)
    (hfits : p.start % chunkSize + (4 + k.length + val.length) < chunkSize)
    (hfresh : p.fresh = true → p.start % chunkSize = 0)
    (hlen : ∀ c, chunks[p.start / chunkSize]? = some (some c) → p.fresh = false →
      c.len = p.start % chunkSize)
    (hnil : chunks[p.start / chunkSize]? = some none → p.start % chunkSize = 0)
    (hval : v.length = val.length)
    (hread : ∀ data len, Over chunks (p.start / chunkSize) data →
      v.read (chunks.set (p.start / chunkSize) (some ⟨writeAt data (p.start % chunkSize)
        (kvLenBuf k.length v.length ++ k), len⟩)) = val) :
    ∃ data, Over chunks (p.start / chunkSize) data ∧
      writeEntry chunks junk p k v = .ok (chunks.set (p.start / chunkSize)
        (some ⟨writeAt data (p.start % chunkSize) (entryBytes k val),
          p.start % chunkSize + (4 + k.length + val.length)⟩)) := by
  obtain ⟨slot, data, hget, hover, hopen⟩ := openChunk_spec junk hidx hfresh hlen hnil
  refine ⟨data, hover, ?_⟩
  have hbuf : (kvLenBuf k.length v.length).length = 4 := rfl
  unfold writeEntry
  dsimp only
  rw [hget]
  dsimp only
  rw [hopen]
  simp only [bind, Except.bind]
  rw [Chunk.append_ok (by rw [hbuf]; dsimp only; omega)]
  dsimp only
  rw [Chunk.append_ok (by rw [hbuf]; dsimp only; omega)]
  dsimp only
  rw [writeAt_append, hread data _ hover, Chunk.append_ok (by rw [hbuf]; dsimp only; omega)]
  dsimp only [pure, Except.pure]
  rw [Nat.add_assoc (p.start % chunkSize), ← List.length_append, writeAt_append, hval]
  simp only [entryBytes, List.append_assoc, List.length_append, Nat.add_assoc]
  rfl

theorem Record.new {chunks : List (Option Chunk)} {s len : Nat} {k val : Bytes}
    (data : Nat → UInt8) (hidx : s / chunkSize < chunks.length)
    (hfits : s % chunkSize + (4 + k.length + val.length) < chunkSize) :
    Record (chunks.set (s / chunkSize)
      (some ⟨writeAt data (s % chunkSize) (entryBytes k val), len⟩)) s k val := by
  refine ⟨hfits, _, List.getElem?_set_self hidx, ?_⟩
  rw [← length_entryBytes, window_writeAt_self]

/-- A write leaves the entries outside it as they are. -/
theorem Record.set {chunks : List (Option Chunk)} {s p len : Nat} {bs k val : Bytes}
    {data : Nat → UInt8} (h : Record chunks p k val) (hover : Over chunks (s / chunkSize) data)
    (hdisjoint : p + (4 + k.length + val.length) ≤ s ∨ s + bs.length ≤ p) :
    Record (chunks.set (s / chunkSize) (some ⟨writeAt data (s % chunkSize) bs, len⟩)) p k val := by
  obtain ⟨chunk, hchunk, hbytes⟩ := h.bytes
  refine ⟨h.fits, ?_⟩
  by_cases hsame : s / chunkSize = p / chunkSize
  · refine ⟨⟨writeAt data (s % chunkSize) bs, len⟩, ?_, ?_⟩
    · rw [hsame]
      exact List.getElem?_set_self (List.getElem?_eq_some_iff.mp hchunk).1
    · dsimp only
      rw [window_writeAt_disjoint, hover chunk (hsame ▸ hchunk), hbytes]
      unfold chunkSize at *
      omega
  · exact ⟨chunk, by rw [List.getElem?_set_ne hsame]; exact hchunk, hbytes⟩

/-! ## The invariant -/

/-- What the map's value `v` for `h` stands for.  `P h k val` says which entries may be stored. -/
def EntryOk (P : UInt64 → Bytes → Bytes → Prop) (b : Bucket) (h v : UInt64) : Prop :=
  (genOf v).toNat = b.bGen.toNat ∧ (∃ k val, P h k val ∧ Record b.chunks (posOf v) k val ∧
      posOf v + (4 + k.length + val.length) ≤ b.idx) ∨
    PrevGen (genOf v).toNat b.bGen.toNat ∧ (genOf v).toNat ≠ 0 ∧
      (b.idx ≤ posOf v → ∃ k val, P h k val ∧ Record b.chunks (posOf v) k val)

/-- The write index is inside the ring, at the end of its chunk's slice. -/
structure Shape (b : Bucket) : Prop where
  count_pos : 0 < b.chunks.length
  count_le : b.chunks.length ≤ 2 ^ 24
  gen : b.bGen.toNat ≠ 0
  idx : b.idx < b.chunks.length * chunkSize
  len : ∀ c, b.chunks[b.idx / chunkSize]? = some (some c) → c.len = b.idx % chunkSize
  nil : b.chunks[b.idx / chunkSize]? = some none → b.idx % chunkSize = 0

structure Inv (P : UInt64 → Bytes → Bytes → Prop) (b : Bucket) : Prop where
  shape : Shape b
  entry : ∀ h v, b.m.lookup h = some v → EntryOk P b h v

theorem Shape.withMap {b : Bucket} (h : Shape b) (m : GoMap UInt64 UInt64) :
    Shape { b with m := m } :=
  ⟨h.count_pos, h.count_le, h.gen, h.idx, h.len, h.nil⟩

variable {P : UInt64 → Bytes → Bytes → Prop} {b : Bucket}

theorem EntryOk.record_of_live {h v : UInt64} (hok : EntryOk P b h v) (hlive : b.isLive v = true) :
    ∃ k val, P h k val ∧ Record b.chunks (posOf v) k val ∧
      (posOf v + (4 + k.length + val.length) ≤ b.idx ∨ b.idx ≤ posOf v) := by
  rw [Bucket.isLive_iff] at hlive
  rcases hok with ⟨hgen, k, val, hP, hrec, hend⟩ | ⟨hprev, hne, hrec⟩
  · exact ⟨k, val, hP, hrec, .inl hend⟩
  · rcases hlive with ⟨hgen, -⟩ | ⟨-, hle⟩
    · -- no generation precedes itself
      unfold PrevGen at hprev
      omega
    · obtain ⟨k, val, hP, hrec⟩ := hrec hle
      exact ⟨k, val, hP, hrec, .inr hle⟩

theorem EntryOk.ne_zero {h v : UInt64} (hok : EntryOk P b h v) (hgen : b.bGen.toNat ≠ 0) :
    v ≠ 0 := by
  rintro rfl
  have hzero : (genOf 0).toNat = 0 := by decide
  -- `getLocked` takes a zero for a missing key; no entry is stored as zero
  rcases hok with ⟨heq, -⟩ | ⟨-, hne, -⟩
  · exact hgen (heq ▸ hzero)
  · exact hne hzero

theorem Inv.getLocked {h : UInt64} (hinv : Inv P b) (k : Bytes) :
    b.getLocked k h = .ok (.error errNoData) ∨
      ∃ v val, b.m.lookup h = some v ∧ b.isLive v = true ∧ P h k val ∧
        Record b.chunks (posOf v) k val ∧
        (posOf v + (4 + k.length + val.length) ≤ b.idx ∨ b.idx ≤ posOf v) ∧
        b.getLocked k h =
          .ok (.ok ⟨posOf v / chunkSize, posOf v % chunkSize + 4 + k.length, val⟩) := by
  cases hlookup : b.m.lookup h with
  | none =>
      left
      rw [Bucket.getLocked, hlookup]
      rfl
  | some v =>
      have hok := hinv.entry h v hlookup
      have hne := hok.ne_zero hinv.shape.gen
      cases hlive : b.isLive v with
      | false =>
          left
          unfold Bucket.getLocked Bucket.locate
          simp only [hlookup, Option.getD_some, if_neg hne, hlive]
          rfl
      | true =>
          obtain ⟨k', val, hP, hrec, hend⟩ := hok.record_of_live hlive
          rw [getLocked_of_record hlookup hne hlive hrec]
          by_cases hk : k = k'
          · subst hk
            exact .inr ⟨v, val, rfl, hlive, hP, hrec, hend, if_pos rfl⟩
          · -- another key has the same hash: `Get` treats it as absent
            exact .inl (if_neg hk)

theorem empty_shape {n : Nat} (hpos : 0 < n) (hle : n ≤ 2 ^ 24) : Shape (Bucket.empty n) where
  count_pos := by rw [Bucket.empty, List.length_replicate]; exact hpos
  count_le := by rw [Bucket.empty, List.length_replicate]; exact hle
  gen := by rw [bGen_toNat]; exact show (1 : UInt64).toNat % 2 ^ 24 ≠ 0 by decide
  idx := by
    rw [Bucket.empty, List.length_replicate]
    exact Nat.mul_pos hpos (by decide)
  len c hc := by
    rw [Bucket.empty, List.getElem?_replicate] at hc
    split at hc
    · cases hc
    · cases hc
  nil _ := rfl

theorem empty_inv {n : Nat} (hpos : 0 < n) (hle : n ≤ 2 ^ 24) : Inv P (Bucket.empty n) where
  shape := empty_shape hpos hle
  entry h v hv := by
    rw [Bucket.empty, AList.lookup_empty] at hv
    cases hv

/-- Entries may be dropped from the map, and described in another way. -/
theorem Inv.restrict {P' : UInt64 → Bytes → Bytes → Prop} (hinv : Inv P b)
    {m : GoMap UInt64 UInt64} (hsub : ∀ h v, m.lookup h = some v → b.m.lookup h = some v)
    (hP : ∀ h v k val, m.lookup h = some v → P h k val → P' h k val) :
    Inv P' { b with m := m } where
  shape := hinv.shape.withMap m
  entry h v hv := by
    rcases hinv.entry h v (hsub h v hv) with ⟨hgen, k, val, hPk, hrec⟩ | ⟨hprev, hne, hrec⟩
    · exact .inl ⟨hgen, k, val, hP h v k val hv hPk, hrec⟩
    · refine .inr ⟨hprev, hne, fun hle ↦ ?_⟩
      obtain ⟨k, val, hPk, hrec⟩ := hrec hle
      exact ⟨k, val, hP h v k val hv hPk, hrec⟩

theorem Inv.imp {P' : UInt64 → Bytes → Bytes → Prop} (hinv : Inv P b)
    (hP : ∀ h k val, P h k val → P' h k val) : Inv P' b :=
  hinv.restrict (m := b.m) (fun _ _ hv ↦ hv) fun h _ k val _ ↦ hP h k val

end CommonLib.XCache
