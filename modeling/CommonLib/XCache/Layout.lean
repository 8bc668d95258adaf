import CommonLib.XCache.InPlace

/-!
# Where the entries of a bucket lie

The entries that can be read share no byte, whichever of the two generations they are of.  So a
bucket is a table from hashes to keys and values that forgets some of them, and a mutator that writes
to the value it is given changes that value only.
-/

namespace CommonLib.XCache

open CommonLib.Reasoning CommonLib.XError

/-- The key and the value last stored under each hash. -/
abbrev Table := UInt64 → Option (Bytes × Bytes)

/-- An entry that can be read is what the table has under its hash, and two of them share no byte. -/
structure Laid (t : Table) (b : Bucket) : Prop extends
    Inv (fun h k val ↦ t h = some (k, val)) b where
  apart : ∀ h h' v v' k val, h ≠ h' → b.m.lookup h = some v → b.m.lookup h' = some v' →
    b.isLive v = true → b.isLive v' = true → t h = some (k, val) → posOf v ≤ posOf v' →
    posOf v + kvLen k val ≤ posOf v'

variable {P P' : UInt64 → Bytes → Bytes → Prop} {t : Table} {b b' : Bucket} {h v : UInt64}
  {k val : Bytes}

/-! ## Writes to the ring -/

/-- After a write the other entries that can be read end before the new one or start behind it. -/
theorem Written.beside (hinv : Inv P b) (hfits : kvLen k val < chunkSize)
    (hw : Written b b' h k val) {h' : UInt64} (hne : h' ≠ h) (hv : b'.m.lookup h' = some v)
    (hlive : b'.isLive v = true) :
    b'.idx ≤ posOf v ∨
      ∃ k' val', P h' k' val' ∧ posOf v + kvLen k' val' ≤ (b.place (kvLen k val)).start := by
  obtain ⟨-, -, -, -, -, hafter⟩ :=
    Bucket.place_spec hinv.shape.count_pos hinv.shape.idx hfits
  obtain ⟨hnext, -⟩ := b.nextGen_spec
  have hbound : b.bGen.toNat < 2 ^ 24 := by
    rw [bGen_toNat]
    omega
  have hgen : b'.bGen.toNat = b'.gen.toNat % 2 ^ 24 := bGen_toNat b'
  rw [Bucket.isLive_iff, hgen, hw.gen] at hlive
  cases hwraps : (b.place (kvLen k val)).wraps with
  | false =>
      simp only [hwraps, Bool.false_eq_true, if_false, ← bGen_toNat b] at hlive
      obtain ⟨-, k', val', hP, -, hend⟩ | ⟨hprev, -, -⟩ := hinv.entry h' v (hw.sub h' hne v hv)
      · exact .inr ⟨k', val', hP, hend.trans (hafter hwraps)⟩
      · unfold PrevGen at hprev hlive
        omega
  | true =>
      -- no entry is of the generation that has just begun
      simp only [hwraps, if_true] at hlive
      unfold PrevGen at hnext hlive
      obtain ⟨hcurrent, -⟩ | ⟨hprev, -, -⟩ := hinv.entry h' v (hw.sub h' hne v hv)
      · omega
      · unfold PrevGen at hprev
        omega

theorem Laid.written (hl : Laid t b) (hfits : kvLen k val < chunkSize) (hw : Written b b' h k val)
    (hinv' : Inv (fun h' k' val' ↦ Function.update t h (some (k, val)) h' = some (k', val')) b') :
    Laid (Function.update t h (some (k, val))) b' where
  toInv := hinv'
  apart h₁ h₂ v₁ v₂ k₁ val₁ hne hv₁ hv₂ hlive₁ hlive₂ ht hle := by
    obtain ⟨hidx, -⟩ := Bucket.place_spec hl.shape.count_pos hl.shape.idx hfits
    have hstart : ∀ v, b'.m.lookup h = some v → posOf v = (b.place (kvLen k val)).start := by
      intro v hv
      rw [hw.self] at hv
      cases hv
      exact posOf_packed _ (position_lt hl.shape hidx)
    have hend := hw.idx
    by_cases hh₁ : h₁ = h
    · subst hh₁
      rw [Function.update_self] at ht
      cases ht
      have hpos := hstart v₁ hv₁
      obtain hbehind | ⟨k', val', -, hbefore⟩ :=
        hw.beside hl.toInv hfits (Ne.symm hne) hv₂ hlive₂
      · omega
      · -- an entry ends behind its start
        have hlen := kvLen_pos k' val'
        omega
    · rw [Function.update_of_ne hh₁] at ht
      by_cases hh₂ : h₂ = h
      · subst hh₂
        have hpos := hstart v₂ hv₂
        obtain hbehind | ⟨k', val', ht', hbefore⟩ := hw.beside hl.toInv hfits hh₁ hv₁ hlive₁
        · have hlen := kvLen_pos k val
          omega
        · cases ht.symm.trans ht'
          omega
      · have hv₁' := hw.sub h₁ hh₁ v₁ hv₁
        have hv₂' := hw.sub h₂ hh₂ v₂ hv₂
        exact hl.apart h₁ h₂ v₁ v₂ k₁ val₁ hne hv₁' hv₂' (hw.back h₁ hh₁ v₁ hv₁' hlive₁)
          (hw.back h₂ hh₂ v₂ hv₂' hlive₂) ht hle

theorem Laid.setLocked (hl : Laid t b) (junk : Nat → UInt8) (onEvict : Bool) {s : Source}
    (hholds : s.Holds b k val) (h : UInt64) :
    (∃ items b', b.setLocked junk k s h onEvict = .ok (⟨.ok (), items⟩, b') ∧
      kvLen k val < chunkSize ∧ Laid (Function.update t h (some (k, val))) b' ∧
      Written b b' h k val) ∨
    ∃ e, b.setLocked junk k s h onEvict = .ok (⟨.error e, none⟩, b) ∧
      chunkSize ≤ kvLen k val := by
  have hother : ∀ h' ≠ h, ∀ k' val', t h' = some (k', val') →
      Function.update t h (some (k, val)) h' = some (k', val') := by
    intro h' hne k' val' ht
    rwa [Function.update_of_ne hne]
  obtain ⟨items, b', hset, hfits, -, hinv', hw⟩ | hrefused :=
    hl.toInv.setLocked junk onEvict hholds hother (Function.update_self ..)
  · exact .inl ⟨items, b', hset, hfits, hl.written hfits hw hinv', hw⟩
  · exact .inr hrefused

/-- Entries may be dropped from the map. -/
theorem Laid.restrict (hl : Laid t b) {t' : Table} {m : GoMap UInt64 UInt64}
    (hsub : ∀ h v, m.lookup h = some v → b.m.lookup h = some v ∧ t' h = t h) :
    Laid t' { b with m := m } where
  toInv := hl.toInv.restrict (fun h v hv ↦ (hsub h v hv).1) fun h v k val hv ht ↦ by
    rwa [(hsub h v hv).2]
  apart h₁ h₂ v₁ v₂ k val hne hv₁ hv₂ hlive₁ hlive₂ ht hle := by
    obtain ⟨hv₁', ht₁⟩ := hsub h₁ v₁ hv₁
    rw [ht₁] at ht
    exact hl.apart h₁ h₂ v₁ v₂ k val hne hv₁' (hsub h₂ v₂ hv₂).1 hlive₁ hlive₂ ht hle

theorem lookup_del (b : Bucket) (h h' : UInt64) :
    (b.del h).m.lookup h' = if h' = h then none else b.m.lookup h' := by
  by_cases hh : h' = h
  · rw [hh, if_pos rfl]
    exact AList.lookup_erase h b.m
  · rw [if_neg hh]
    exact AList.lookup_erase_ne hh

theorem Laid.del (hl : Laid t b) (h : UInt64) : Laid (Function.update t h none) (b.del h) := by
  refine hl.restrict fun h' v hv ↦ ?_
  have hlookup := lookup_del b h h'
  by_cases hh : h' = h
  · rw [if_pos hh] at hlookup
    cases hv.symm.trans hlookup
  · rw [if_neg hh] at hlookup
    exact ⟨hlookup.symm.trans hv, Function.update_of_ne hh ..⟩

theorem empty_laid {n : Nat} (hpos : 0 < n) (hle : n ≤ 2 ^ 24) : Laid t (Bucket.empty n) where
  toInv := empty_inv hpos hle
  apart _ _ _ _ _ _ _ hv := by
    rw [Bucket.empty, AList.lookup_empty] at hv
    cases hv

/-! ## Writes to a value -/

theorem isLive_overwrite (b : Bucket) (w : View) (bs : Bytes) (v : UInt64) :
    (b.overwrite w bs).isLive v = b.isLive v := by
  obtain ⟨-, hidx, hgen, -⟩ := overwrite_fields b w bs
  simp only [Bucket.isLive, Bucket.bGen, hidx, hgen]

theorem Laid.overwrite {val' : Bytes} (hl : Laid t b) (hv : b.m.lookup h = some v)
    (hlive : b.isLive v = true) (ht : t h = some (k, val)) (hrec : Record b.chunks (posOf v) k val)
    (hlen : val'.length = val.length) :
    Laid (Function.update t h (some (k, val')))
      (b.overwrite ⟨posOf v / chunkSize, posOf v % chunkSize + 4 + k.length, val⟩ val') := by
  obtain ⟨hm, -⟩ := overwrite_fields b
    ⟨posOf v / chunkSize, posOf v % chunkSize + 4 + k.length, val⟩ val'
  refine ⟨hl.toInv.overwrite hv hrec hlen (Function.update_self ..)
    fun h' v' k' val'' hne hv' hlive' ht' ↦ ⟨(Function.update_of_ne hne ..).trans ht', ?_⟩,
    fun h₁ h₂ v₁ v₂ k₁ val₁ hne hv₁ hv₂ hlive₁ hlive₂ ht₁ hle ↦ ?_⟩
  · rcases Nat.le_total (posOf v') (posOf v) with hle | hle
    · exact .inl (hl.apart h' h v' v k' val'' hne hv' hv hlive' hlive ht' hle)
    · exact .inr (hl.apart h h' v v' k val (Ne.symm hne) hv hv' hlive hlive' ht hle)
  · rw [hm] at hv₁ hv₂
    rw [isLive_overwrite] at hlive₁ hlive₂
    by_cases hh : h₁ = h
    · subst hh
      rw [Function.update_self] at ht₁
      cases ht₁
      have hend := hl.apart h₁ h₂ v₁ v₂ k val hne hv₁ hv₂ hlive₁ hlive₂ ht hle
      rwa [kvLen, ← hlen] at hend
    · rw [Function.update_of_ne hh] at ht₁
      exact hl.apart h₁ h₂ v₁ v₂ k₁ val₁ hne hv₁ hv₂ hlive₁ hlive₂ ht₁ hle

/-- After the write the slice is what `getLocked` returns. -/
theorem Laid.getLocked_overwrite {val' : Bytes} (hl : Laid t b) (hv : b.m.lookup h = some v)
    (hlive : b.isLive v = true) (hrec : Record b.chunks (posOf v) k val)
    (hlen : val'.length = val.length) :
    (b.overwrite ⟨posOf v / chunkSize, posOf v % chunkSize + 4 + k.length, val⟩ val').getLocked k h =
      .ok (.ok ⟨posOf v / chunkSize, posOf v % chunkSize + 4 + k.length, val'⟩) := by
  obtain ⟨chunk, hchunk, -⟩ := hrec.bytes
  obtain ⟨hm, -⟩ := overwrite_fields b
    ⟨posOf v / chunkSize, posOf v % chunkSize + 4 + k.length, val⟩ val'
  have hrec' : Record (b.overwrite ⟨posOf v / chunkSize, posOf v % chunkSize + 4 + k.length, val⟩
      val').chunks (posOf v) k val' := by
    rw [overwrite_eq hchunk]
    exact hrec.overwrite hlen hchunk
  rw [getLocked_of_record (hm ▸ hv) ((hl.entry h v hv).ne_zero hl.shape.gen)
    ((isLive_overwrite ..).trans hlive) hrec', if_pos rfl]

end CommonLib.XCache
