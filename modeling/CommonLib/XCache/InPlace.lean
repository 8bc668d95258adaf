import CommonLib.XCache.Eviction

/-!
# Updates in place

`Update` gives its mutator the value inside the ring, and a mutator may write to it.  As long as no
write wraps, the entries of a bucket are all of one generation and share no byte, so that such a
write reaches no other entry.
-/

namespace CommonLib.XCache

open CommonLib.Reasoning CommonLib.XError

/-- A call of a mutator that may write to its argument: what the slice holds afterwards, what else
it does, and what it returns. -/
structure Mutation (E : Type) where
  slice : Bytes
  effect : E
  reply : Except GoError (Slice × Bool)

namespace Bucket

/-- The slice of a view, after a write to it. -/
def overwrite (b : Bucket) (w : View) (bs : Bytes) : Bucket :=
  match b.chunks[w.chunkIdx]? with
  | some (some chunk) =>
      let chunk := { chunk with data := writeAt chunk.data w.off bs }
      { b with chunks := b.chunks.set w.chunkIdx (some chunk) }
  | _ => b

/-- `Update`, with what the mutator does if it is called. -/
def updateInPlace {E : Type} (b : Bucket) (junk : Nat → UInt8) (k : Bytes) (h : UInt64)
    (mutator : Option Bytes → Except Crash (Mutation E)) (onEvict : Bool) :
    Except Crash (Option E × Outcome Unit × Bucket) := do
  let r ← b.getLocked k h
  let view := r.toOption
  let err : Except GoError Unit := r.map fun _ ↦ ()
  if r.isOk ∨ err = .error errNoData then
    let mutation ← mutator (view.map (·.bytes))
    -- the slice that the mutator is given is the memory of the ring
    let b := view.elim b fun w ↦ b.overwrite w mutation.slice
    match mutation.reply with
    | .error e => return (some mutation.effect, ⟨.error e, none⟩, b)
    | .ok (v, true) =>
        let (out, b) ← b.setLocked junk k (v.source view) h onEvict
        return (some mutation.effect, out, b)
    | .ok (_, false) => return (some mutation.effect, ⟨err, none⟩, b)
  else return (none, ⟨err, none⟩, b)

end Bucket

def Cache.updateInPlace {E : Type} (hash : Bytes → UInt64) (c : Cache) (junk : Nat → UInt8)
    (k : Bytes) (mutator : Option Bytes → Except Crash (Mutation E)) :
    Except Crash (Option E × Outcome Unit × Cache) := do
  let i := bucketIdx hash k
  let (effect, out, b) ← (c.buckets i).updateInPlace junk k (hash k) mutator c.onEvict
  return (effect, out, c.setBucket i b)

/-! ## A write to a value -/

theorem Record.overwrite {chunks : List (Option Chunk)} {p : Nat} {k val val' : Bytes}
    {chunk : Chunk} (h : Record chunks p k val) (hlen : val'.length = val.length)
    (hchunk : chunks[p / chunkSize]? = some (some chunk)) :
    Record (chunks.set (p / chunkSize) (some
      ⟨writeAt chunk.data (p % chunkSize + 4 + k.length) val', chunk.len⟩)) p k val' := by
  obtain ⟨chunk', hchunk', hbytes⟩ := h.bytes
  rw [hchunk] at hchunk'
  cases hchunk'
  obtain ⟨hhead, hkey, -⟩ := Record.windows hbytes
  refine ⟨by rw [hlen]; exact h.fits, _,
    List.getElem?_set_self (List.getElem?_eq_some_iff.mp hchunk).1, ?_⟩
  dsimp only
  -- the header and the key end where the value starts
  rw [Nat.add_assoc 4, window_add, window_add, window_writeAt_disjoint _ _ (.inl (by omega)),
    window_writeAt_disjoint _ _ (.inl le_rfl), window_writeAt_self, hhead, hkey, entryBytes, hlen]

/-- A write inside the value of the entry at `p` reaches none that ends before it or starts behind
it. -/
theorem Record.overwrite_other {chunks : List (Option Chunk)} {p p' : Nat}
    {k val val' k' val'' : Bytes} {chunk : Chunk} (h : Record chunks p k val)
    (hlen : val'.length = val.length) (hchunk : chunks[p / chunkSize]? = some (some chunk))
    (h' : Record chunks p' k' val'')
    (hapart : p' + kvLen k' val'' ≤ p ∨ p + kvLen k val ≤ p') :
    Record (chunks.set (p / chunkSize) (some
      ⟨writeAt chunk.data (p % chunkSize + 4 + k.length) val', chunk.len⟩)) p' k' val'' := by
  have hfits := h.fits
  have hdiv : (p + (4 + k.length)) / chunkSize = p / chunkSize := by
    unfold chunkSize at *
    omega
  have hmod : (p + (4 + k.length)) % chunkSize = p % chunkSize + 4 + k.length := by
    unfold chunkSize at *
    omega
  -- a value lies in the chunk of its entry, so its write is one at a position of the ring
  have hover : Over chunks ((p + (4 + k.length)) / chunkSize) chunk.data := by
    intro c hc
    rw [hdiv, hchunk] at hc
    cases hc
    rfl
  rw [← hdiv, ← hmod]
  unfold kvLen at hapart
  exact h'.set hover (by omega)

section Overwrite

variable (b : Bucket) (w : View) (bs : Bytes)

theorem overwrite_fields : (b.overwrite w bs).m = b.m ∧ (b.overwrite w bs).idx = b.idx ∧
    (b.overwrite w bs).gen = b.gen ∧ (b.overwrite w bs).chunks.length = b.chunks.length := by
  rw [Bucket.overwrite]
  split
  · exact ⟨rfl, rfl, rfl, List.length_set ..⟩
  · exact ⟨rfl, rfl, rfl, rfl⟩

variable {b w bs}

theorem overwrite_eq {chunk : Chunk} (h : b.chunks[w.chunkIdx]? = some (some chunk)) :
    (b.overwrite w bs).chunks =
      b.chunks.set w.chunkIdx (some ⟨writeAt chunk.data w.off bs, chunk.len⟩) := by
  rw [Bucket.overwrite, h]

theorem overwrite_shape (h : Shape b) : Shape (b.overwrite w bs) := by
  rw [Bucket.overwrite]
  split
  next chunk hchunk =>
    have hlength := (List.getElem?_eq_some_iff.mp hchunk).1
    refine ⟨?_, ?_, h.gen, ?_, fun c hc ↦ ?_, fun hnil ↦ ?_⟩
    · rw [List.length_set]
      exact h.count_pos
    · rw [List.length_set]
      exact h.count_le
    · rw [List.length_set]
      exact h.idx
    · by_cases hsame : w.chunkIdx = b.idx / chunkSize
      · rw [← hsame, List.getElem?_set_self hlength] at hc
        cases hc
        exact h.len chunk (hsame ▸ hchunk)
      · rw [List.getElem?_set_ne hsame] at hc
        exact h.len c hc
    · by_cases hsame : w.chunkIdx = b.idx / chunkSize
      · rw [← hsame, List.getElem?_set_self hlength] at hnil
        cases hnil
      · rw [List.getElem?_set_ne hsame] at hnil
        exact h.nil hnil
  next => exact h

end Overwrite

variable {P : UInt64 → Bytes → Bytes → Prop} {b : Bucket} {h v : UInt64}

/-- Entries that can be read may be exchanged for others of their length. -/
theorem EntryOk.exchange {P' : UInt64 → Bytes → Bytes → Prop} {b' : Bucket}
    (hok : EntryOk P b h v) (hgen : b'.gen = b.gen) (hidx : b'.idx = b.idx)
    (hrec : ∀ k val, P h k val → b.isLive v = true → Record b.chunks (posOf v) k val →
      ∃ val', P' h k val' ∧ Record b'.chunks (posOf v) k val' ∧ val'.length = val.length) :
    EntryOk P' b' h v := by
  have hbGen : b'.bGen = b.bGen := by rw [Bucket.bGen, Bucket.bGen, hgen]
  unfold EntryOk
  rw [hbGen, hidx]
  obtain ⟨hcurrent, k, val, hP, hentry, hend⟩ | ⟨hprev, hne, hentry⟩ := hok
  · have hlive : b.isLive v = true :=
      (Bucket.isLive_iff b v).mpr (.inl ⟨hcurrent, by omega⟩)
    obtain ⟨val', hP', hentry', hlen⟩ := hrec k val hP hlive hentry
    exact .inl ⟨hcurrent, k, val', hP', hentry', by rw [hlen]; exact hend⟩
  · refine .inr ⟨hprev, hne, fun hle ↦ ?_⟩
    have hlive : b.isLive v = true := (Bucket.isLive_iff b v).mpr (.inr ⟨hprev, hle⟩)
    obtain ⟨k, val, hP, hentry⟩ := hentry hle
    obtain ⟨val', hP', hentry', -⟩ := hrec k val hP hlive hentry
    exact ⟨k, val', hP', hentry'⟩

/-- A write of the same length to a value, if the other entries that can be read lie beside it. -/
theorem Inv.overwrite {P' : UInt64 → Bytes → Bytes → Prop} {k val val' : Bytes} (hinv : Inv P b)
    (hv : b.m.lookup h = some v) (hrec : Record b.chunks (posOf v) k val)
    (hlen : val'.length = val.length) (hnew : P' h k val')
    (hother : ∀ h' v' k' val'', h' ≠ h → b.m.lookup h' = some v' → b.isLive v' = true →
      P h' k' val'' → P' h' k' val'' ∧
        (posOf v' + kvLen k' val'' ≤ posOf v ∨ posOf v + kvLen k val ≤ posOf v')) :
    Inv P' (b.overwrite ⟨posOf v / chunkSize, posOf v % chunkSize + 4 + k.length, val⟩ val') := by
  obtain ⟨chunk, hchunk, -⟩ := hrec.bytes
  obtain ⟨hm, hidx, hgen, -⟩ := overwrite_fields b
    ⟨posOf v / chunkSize, posOf v % chunkSize + 4 + k.length, val⟩ val'
  refine ⟨overwrite_shape hinv.shape, fun h' v' hv' ↦ ?_⟩
  rw [hm] at hv'
  refine (hinv.entry h' v' hv').exchange hgen hidx fun k' val'' hP hlive hrec' ↦ ?_
  rw [overwrite_eq hchunk]
  by_cases hh : h' = h
  · subst hh
    cases hv.symm.trans hv'
    -- what is read at a position is one key and one value
    cases (readItem_of_record hlive hrec).symm.trans (readItem_of_record hlive hrec')
    exact ⟨val', hnew, hrec.overwrite hlen hchunk, hlen⟩
  · obtain ⟨hP', hapart⟩ := hother h' v' k' val'' hh hv' hlive hP
    exact ⟨val'', hP', hrec.overwrite_other hlen hchunk hrec' hapart, rfl⟩

/-! ## The reading mutators -/

theorem updateInPlace_eq {E : Type} {view : Option View} {k : Bytes}
    (hget : b.getLocked k h = .ok (viewResult view)) (junk : Nat → UInt8)
    (mutator : Option Bytes → Except Crash (Mutation E)) (onEvict : Bool) :
    b.updateInPlace junk k h mutator onEvict = (mutator (view.map (·.bytes))).bind fun mutation ↦
      let b := view.elim b fun w ↦ b.overwrite w mutation.slice
      match mutation.reply with
      | .error e => .ok (some mutation.effect, ⟨.error e, none⟩, b)
      | .ok (v, true) => (b.setLocked junk k (v.source view) h onEvict).map fun (out, b) ↦
          (some mutation.effect, out, b)
      | .ok (_, false) =>
          .ok (some mutation.effect, ⟨(viewResult view).map fun _ ↦ (), none⟩, b) := by
  unfold Bucket.updateInPlace
  simp only [hget, bind, Except.bind]
  cases view <;> rfl

/-- Writing back what a view holds changes nothing. -/
theorem Inv.overwrite_view (hinv : Inv P b) (k : Bytes) :
    ∃ view, b.getLocked k h = .ok (viewResult view) ∧
      ∀ w ∈ view, b.overwrite w w.bytes = b := by
  obtain hnone | ⟨v, val, -, -, -, hrec, -, hsome⟩ := hinv.getLocked (h := h) k
  · exact ⟨none, hnone, nofun⟩
  · refine ⟨some ⟨posOf v / chunkSize, posOf v % chunkSize + 4 + k.length, val⟩, hsome, ?_⟩
    rintro w ⟨⟩
    obtain ⟨chunk, hchunk, hbytes⟩ := hrec.bytes
    obtain ⟨-, -, hval⟩ := Record.windows hbytes
    have hdata : writeAt chunk.data (posOf v % chunkSize + 4 + k.length) val = chunk.data := by
      nth_rewrite 1 [← hval]
      exact writeAt_window ..
    obtain ⟨hlt, hget⟩ := List.getElem?_eq_some_iff.mp hchunk
    have hset : b.chunks.set (posOf v / chunkSize) (some chunk) = b.chunks := by
      rw [← hget, List.set_getElem_self]
    rw [Bucket.overwrite, hchunk]
    dsimp only
    rw [hdata, hset]

/-- A mutator that leaves the slice as it is does what `Bucket.update` says. -/
theorem updateInPlace_of_reading (hinv : Inv P b) (junk : Nat → UInt8) (k : Bytes)
    (mutator : Mutator) (onEvict : Bool) :
    (b.updateInPlace junk k h (fun v ↦ .ok ⟨v.getD [], (), mutator v⟩) onEvict).map (·.2) =
      b.update junk k h mutator onEvict := by
  obtain ⟨view, hget, hsame⟩ := hinv.overwrite_view (h := h) k
  rw [updateInPlace_eq hget, update_eq hget]
  have hslice : (view.elim b fun w ↦ b.overwrite w ((view.map (·.bytes)).getD [])) = b := by
    cases view with
    | none => rfl
    | some w => exact hsame w rfl
  simp only [Except.bind, hslice]
  cases mutator (view.map (·.bytes)) with
  | error e => rfl
  | ok r =>
      obtain ⟨v, update⟩ := r
      cases update with
      | false => rfl
      | true =>
          dsimp only
          cases b.setLocked junk k (v.source view) h onEvict <;> rfl

/-! ## Entries that share no byte -/

/-- The entries are of the current generation, and each ends before the next starts. -/
structure Apart (P : UInt64 → Bytes → Bytes → Prop) (b : Bucket) : Prop where
  current : ∀ h v, b.m.lookup h = some v → (genOf v).toNat = b.bGen.toNat
  ordered : ∀ h v h' v' k val, b.m.lookup h = some v → b.m.lookup h' = some v' → h ≠ h' →
    P h k val → posOf v ≤ posOf v' → posOf v + kvLen k val ≤ posOf v'

theorem Inv.entry_of_current (hinv : Inv P b) (hv : b.m.lookup h = some v)
    (hgen : (genOf v).toNat = b.bGen.toNat) :
    b.isLive v = true ∧ ∃ k val, P h k val ∧ Record b.chunks (posOf v) k val ∧
      posOf v + kvLen k val ≤ b.idx := by
  obtain ⟨-, k, val, hP, hrec, hend⟩ | ⟨hprev, -, -⟩ := hinv.entry h v hv
  · refine ⟨(Bucket.isLive_iff b v).mpr (.inl ⟨hgen, ?_⟩), k, val, hP, hrec, hend⟩
    omega
  · unfold PrevGen at hprev
    omega

/-- Values may change, but not in length. -/
theorem Apart.of_same {P' : UInt64 → Bytes → Bytes → Prop} {b' : Bucket} (h : Apart P b)
    (hm : b'.m = b.m) (hgen : b'.gen = b.gen)
    (hP : ∀ h k val, P' h k val → ∃ val', P h k val' ∧ val'.length = val.length) :
    Apart P' b' := by
  refine ⟨fun h₁ v₁ hv ↦ ?_, fun h₁ v₁ h₂ v₂ k val hv₁ hv₂ hne hP' hle ↦ ?_⟩
  · rw [hm] at hv
    rw [h.current h₁ v₁ hv, Bucket.bGen, Bucket.bGen, hgen]
  · rw [hm] at hv₁ hv₂
    obtain ⟨val', hP₀, hlen⟩ := hP h₁ k val hP'
    have hend := h.ordered h₁ v₁ h₂ v₂ k val' hv₁ hv₂ hne hP₀ hle
    rwa [kvLen, hlen] at hend

section Written

variable {P' : UInt64 → Bytes → Bytes → Prop} {b' : Bucket} {k val : Bytes}

/-- Without a wrap the new entry is of the same generation, behind all the others. -/
theorem Written.behind (hinv : Inv P b) (hw : Written b b' h k val) (hfits : kvLen k val < chunkSize)
    (hwraps : (b.place (kvLen k val)).wraps = false) :
    b'.bGen = b.bGen ∧ ∃ v, b'.m.lookup h = some v ∧ (genOf v).toNat = b.bGen.toNat ∧
      b.idx ≤ posOf v ∧ b'.idx = posOf v + kvLen k val := by
  obtain ⟨hidx, -, -, -, -, hafter⟩ :=
    Bucket.place_spec hinv.shape.count_pos hinv.shape.idx hfits
  have hs := position_lt hinv.shape hidx
  have hgen : b'.gen = b.gen := by rw [hw.gen, hwraps]; rfl
  refine ⟨by rw [Bucket.bGen, Bucket.bGen, hgen], _, hw.self, ?_, ?_, ?_⟩
  · rw [genOf_packed _ hs, hgen, bGen_toNat]
  · rw [posOf_packed _ hs]
    exact hafter hwraps
  · rw [posOf_packed _ hs]
    exact hw.idx

theorem Written.lookup_of_ne (hinv : Inv P b) (hapart : Apart P b) (hw : Written b b' h k val)
    (hfits : kvLen k val < chunkSize) (hwraps : (b.place (kvLen k val)).wraps = false)
    {h' v' : UInt64} (hne : h' ≠ h) : b'.m.lookup h' = some v' ↔ b.m.lookup h' = some v' := by
  refine ⟨hw.sub h' hne v', fun hv' ↦ hw.keep h' hne v' hv' ?_⟩
  -- an entry of the current generation below the write index stays live
  obtain ⟨hgen, v, -, -, hbehind, hidx⟩ := hw.behind hinv hfits hwraps
  have hcurrent := hapart.current h' v' hv'
  obtain ⟨-, k', val', -, -, hend⟩ := hinv.entry_of_current hv' hcurrent
  rw [Bucket.isLive_iff, hgen]
  unfold kvLen at hend hidx
  exact .inl ⟨hcurrent, by omega⟩

theorem Written.apart (hinv : Inv P b) (hapart : Apart P b) (hw : Written b b' h k val)
    (hfits : kvLen k val < chunkSize) (hwraps : (b.place (kvLen k val)).wraps = false)
    (hP : ∀ h' ≠ h, ∀ k val, P' h' k val → P h' k val)
    (hunique : ∀ h k val k' val', P h k val → P h k' val' → k = k' ∧ val = val') : Apart P' b' := by
  obtain ⟨hgen, v, hv, hcurrent, hbehind, -⟩ := hw.behind hinv hfits hwraps
  have hother {h' v' : UInt64} (hne : h' ≠ h) :
      b'.m.lookup h' = some v' ↔ b.m.lookup h' = some v' :=
    hw.lookup_of_ne hinv hapart hfits hwraps hne
  refine ⟨fun h₁ v₁ hv₁ ↦ ?_, fun h₁ v₁ h₂ v₂ k₁ val₁ hv₁ hv₂ hne hP₁ hle ↦ ?_⟩
  · rw [hgen]
    by_cases hh : h₁ = h
    · rw [hh, hv] at hv₁
      cases hv₁
      exact hcurrent
    · exact hapart.current h₁ v₁ ((hother hh).mp hv₁)
  · by_cases hh₁ : h₁ = h
    · -- nothing is behind the new entry
      rw [hh₁, hv] at hv₁
      cases hv₁
      have hv₂' := (hother fun hh₂ ↦ hne (hh₁.trans hh₂.symm)).mp hv₂
      obtain ⟨-, k₂, val₂, -, -, hend⟩ :=
        hinv.entry_of_current hv₂' (hapart.current h₂ v₂ hv₂')
      unfold kvLen at hend
      omega
    · have hv₁' := (hother hh₁).mp hv₁
      by_cases hh₂ : h₂ = h
      · rw [hh₂, hv] at hv₂
        cases hv₂
        obtain ⟨-, k₂, val₂, hP₂, -, hend⟩ :=
          hinv.entry_of_current hv₁' (hapart.current h₁ v₁ hv₁')
        obtain ⟨rfl, rfl⟩ := hunique h₁ k₁ val₁ k₂ val₂ (hP h₁ hh₁ k₁ val₁ hP₁) hP₂
        exact hend.trans hbehind
      · exact hapart.ordered h₁ v₁ h₂ v₂ k₁ val₁ hv₁' ((hother hh₂).mp hv₂) hne
          (hP h₁ hh₁ k₁ val₁ hP₁) hle

end Written

variable {hash : Bytes → UInt64} {U : Set Bytes} {c : Cache} {last : Bytes → Option Bytes}

theorem Sound.stored_unique {i j : Fin bucketsCount} {k k' val val' : Bytes}
    (hs : Sound hash U c last) (hstored : Stored hash last i h k val)
    (hstored' : Stored hash last j h k' val') : k = k' ∧ val = val' := by
  obtain ⟨hh, -, hlast⟩ := hstored
  obtain ⟨hh', -, hlast'⟩ := hstored'
  have hk : k = k' := hs.inj (hs.known k val hlast) (hs.known k' val' hlast') (hh.trans hh'.symm)
  subst hk
  rw [hlast] at hlast'
  exact ⟨rfl, Option.some.inj hlast'⟩

theorem Stored.of_update_of_ne {i : Fin bucketsCount} {k k' val' : Bytes} {val : Option Bytes}
    (hstored : Stored hash (Function.update last k val) i h k' val') (hne : k' ≠ k) :
    Stored hash last i h k' val' := by
  obtain ⟨hh, hi, hlast⟩ := hstored
  rw [Function.update_of_ne hne] at hlast
  exact ⟨hh, hi, hlast⟩

/-- Seen from before a write to `k` of a value of the same length. -/
theorem Stored.of_update {i : Fin bucketsCount} {k k' val val' val₀ : Bytes}
    (hlast : last k = some val) (hlen : val.length = val'.length)
    (hstored : Stored hash (Function.update last k (some val')) i h k' val₀) :
    ∃ val₁, Stored hash last i h k' val₁ ∧ val₁.length = val₀.length := by
  by_cases hk : k' = k
  · subst hk
    obtain ⟨hh, hi, hlast'⟩ := hstored
    rw [Function.update_self] at hlast'
    cases hlast'
    exact ⟨val, ⟨hh, hi, hlast⟩, hlen⟩
  · exact ⟨val₀, hstored.of_update_of_ne hk, rfl⟩

/-- Nothing that was written has been lost, and the entries of each bucket share no byte. -/
structure Settled (hash : Bytes → UInt64) (U : Set Bytes) (c : Cache)
    (last : Bytes → Option Bytes) : Prop extends Sound hash U c last where
  stored : ∀ k val, last k = some val →
    ∃ v, (c.buckets (Cache.bucketIdx hash k)).m.lookup (hash k) = some v
  apart : ∀ i, Apart (Stored hash last i) (c.buckets i)

namespace Settled

/-- The entry of a key that has been written. -/
theorem entry {k val : Bytes} (hs : Settled hash U c last) (hlast : last k = some val) :
    ∃ v, (c.buckets (Cache.bucketIdx hash k)).m.lookup (hash k) = some v ∧
      (c.buckets (Cache.bucketIdx hash k)).isLive v = true ∧
      Record (c.buckets (Cache.bucketIdx hash k)).chunks (posOf v) k val := by
  -- no other key has this hash, so the entry under it is that of `k`
  obtain ⟨v, hv⟩ := hs.stored k val hlast
  obtain ⟨hlive, k', val', hstored, hrec, -⟩ :=
    (hs.inv _).entry_of_current hv ((hs.apart _).current _ v hv)
  obtain ⟨rfl, rfl⟩ := hs.stored_unique hstored ⟨rfl, rfl, hlast⟩
  exact ⟨v, hv, hlive, hrec⟩

theorem current_eq (hs : Settled hash U c last) (k : Bytes) : c.current hash k = last k := by
  apply Option.ext
  intro val
  rw [hs.current_iff]
  refine ⟨And.left, fun hlast ↦ ⟨hlast, ?_⟩⟩
  obtain ⟨v, hv, hlive, -⟩ := hs.entry hlast
  exact ⟨v, hv, hlive⟩

theorem sound_update {k val : Bytes} {b : Bucket} (hs : Settled hash U c last) (hk : k ∈ U)
    (hb : Inv (Stored hash (Function.update last k (some val)) (Cache.bucketIdx hash k)) b) :
    Sound hash U (c.setBucket (Cache.bucketIdx hash k) b) (Function.update last k (some val)) where
  inv := hs.inv.setBucket k (some val) hb
  known k' val' hlast := by
    by_cases hne : k' = k
    · rwa [hne]
    · rw [Function.update_of_ne hne] at hlast
      exact hs.known k' val' hlast
  inj := hs.inj

/-- A write for `k` leaves the other buckets, and in its own the entries under other hashes. -/
theorem setBucket {k val : Bytes} {b : Bucket} (hs : Settled hash U c last) (hk : k ∈ U)
    (hb : Inv (Stored hash (Function.update last k (some val)) (Cache.bucketIdx hash k)) b)
    (hself : ∃ v, b.m.lookup (hash k) = some v)
    (hkeep : ∀ h v, h ≠ hash k → (c.buckets (Cache.bucketIdx hash k)).m.lookup h = some v →
      b.m.lookup h = some v)
    (hapart : Apart (Stored hash (Function.update last k (some val)) (Cache.bucketIdx hash k)) b) :
    Settled hash U (c.setBucket (Cache.bucketIdx hash k) b)
      (Function.update last k (some val)) where
  toSound := hs.sound_update hk hb
  stored k' val' hlast := by
    by_cases hi : Cache.bucketIdx hash k' = Cache.bucketIdx hash k
    · rw [hi, setBucket_same]
      by_cases hh : hash k' = hash k
      · rw [hh]
        exact hself
      · have hne : k' ≠ k := fun hk' ↦ hh (congrArg hash hk')
        rw [Function.update_of_ne hne] at hlast
        obtain ⟨v, hv⟩ := hs.stored k' val' hlast
        rw [hi] at hv
        exact ⟨v, hkeep _ v hh hv⟩
    · have hne : k' ≠ k := fun hk' ↦ hi (congrArg (Cache.bucketIdx hash) hk')
      rw [Function.update_of_ne hne] at hlast
      rw [setBucket_other c hi]
      exact hs.stored k' val' hlast
  apart j := by
    by_cases hj : j = Cache.bucketIdx hash k
    · subst hj
      rw [setBucket_same]
      exact hapart
    · rw [setBucket_other c hj]
      refine (hs.apart j).of_same rfl rfl fun h' k' val' hstored ↦ ⟨val', ?_, rfl⟩
      -- what belongs to another bucket is not `k`
      refine hstored.of_update_of_ne fun hk' ↦ hj ?_
      rw [← hstored.2.1, hk']

/-! ## The operations -/

section Overwrite

variable {k val val' : Bytes} {v : UInt64}

theorem overwrite_inv (hs : Settled hash U c last) (hlast : last k = some val)
    (hv : (c.buckets (Cache.bucketIdx hash k)).m.lookup (hash k) = some v)
    (hrec : Record (c.buckets (Cache.bucketIdx hash k)).chunks (posOf v) k val)
    (hlen : val'.length = val.length) :
    Inv (Stored hash (Function.update last k (some val')) (Cache.bucketIdx hash k))
      ((c.buckets (Cache.bucketIdx hash k)).overwrite
        ⟨posOf v / chunkSize, posOf v % chunkSize + 4 + k.length, val⟩ val') := by
  have hstored : Stored hash last (Cache.bucketIdx hash k) (hash k) k val := ⟨rfl, rfl, hlast⟩
  refine (hs.inv _).overwrite hv hrec hlen ⟨rfl, rfl, Function.update_self ..⟩
    fun h' v' k' val'' hne hv' _ hstored' ↦ ⟨hstored'.write _ hne, ?_⟩
  rcases Nat.le_total (posOf v') (posOf v) with hle | hle
  · exact .inl ((hs.apart _).ordered h' v' _ v k' val'' hv' hv hne hstored' hle)
  · exact .inr ((hs.apart _).ordered _ v h' v' k val hv hv' (Ne.symm hne) hstored hle)

/-- A write of the same length to the value of `k`. -/
theorem overwrite (hs : Settled hash U c last) (hlast : last k = some val)
    (hv : (c.buckets (Cache.bucketIdx hash k)).m.lookup (hash k) = some v)
    (hrec : Record (c.buckets (Cache.bucketIdx hash k)).chunks (posOf v) k val)
    (hlen : val'.length = val.length) :
    Settled hash U (c.setBucket (Cache.bucketIdx hash k)
      ((c.buckets (Cache.bucketIdx hash k)).overwrite
        ⟨posOf v / chunkSize, posOf v % chunkSize + 4 + k.length, val⟩ val'))
      (Function.update last k (some val')) := by
  obtain ⟨hm, -, hgen, -⟩ := overwrite_fields (c.buckets (Cache.bucketIdx hash k))
    ⟨posOf v / chunkSize, posOf v % chunkSize + 4 + k.length, val⟩ val'
  refine hs.setBucket (hs.known k val hlast) (hs.overwrite_inv hlast hv hrec hlen) ⟨v, ?_⟩
    (fun h' v' _ hv' ↦ ?_) ?_
  · rwa [hm]
  · rwa [hm]
  · exact (hs.apart _).of_same hm hgen fun _ _ _ ↦ Stored.of_update hlast hlen.symm

end Overwrite

/-- A write to the ring that does not wrap. -/
theorem store {k val : Bytes} (hs : Settled hash U c last) (junk : Nat → UInt8) (hk : k ∈ U)
    (hfits : kvLen k val < chunkSize)
    (hwraps : ((c.buckets (Cache.bucketIdx hash k)).place (kvLen k val)).wraps = false) :
    ∃ items b, (c.buckets (Cache.bucketIdx hash k)).setLocked junk k (.own val) (hash k) c.onEvict =
        .ok (⟨.ok (), items⟩, b) ∧ items.getD [] = [] ∧
      Settled hash U (c.setBucket (Cache.bucketIdx hash k) b)
        (Function.update last k (some val)) := by
  obtain ⟨items, b, hset, -, hnil, hb, hwritten⟩ | ⟨e, -, hlarge⟩ :=
    hs.inv.setLocked junk (k := k) (v := .own val) rfl
  · refine ⟨items, b, hset, hnil, hs.setBucket hk hb ⟨_, hwritten.self⟩ (fun h' v' hne ↦ ?_) ?_⟩
    · exact (hwritten.lookup_of_ne (hs.inv _) (hs.apart _) hfits hwraps hne).mpr
    · refine hwritten.apart (hs.inv _) (hs.apart _) hfits hwraps ?_
        fun h k val k' val' hP hP' ↦ hs.stored_unique hP hP'
      intro h' hne k' val' hstored
      exact hstored.of_update_of_ne fun hk' ↦ hne (hstored.1.symm.trans (congrArg hash hk'))
  · exact absurd hlarge (Nat.not_le.mpr hfits)

/-- `Update` of a key that has no value, with a mutator that returns one. -/
theorem updateInPlace_absent {E : Type} {k val : Bytes} {effect : E} {slice : Bytes}
    {mutator : Option Bytes → Except Crash (Mutation E)} (hs : Settled hash U c last)
    (junk : Nat → UInt8) (hk : k ∈ U) (hlast : last k = none)
    (hmutator : mutator none = .ok ⟨slice, effect, .ok (.own val, true)⟩)
    (hfits : kvLen k val < chunkSize)
    (hwraps : ((c.buckets (Cache.bucketIdx hash k)).place (kvLen k val)).wraps = false) :
    ∃ items c', c.updateInPlace hash junk k mutator = .ok (some effect, ⟨.ok (), items⟩, c') ∧
      items.getD [] = [] ∧ c'.onEvict = c.onEvict ∧
      Settled hash U c' (Function.update last k (some val)) := by
  have hget : (c.buckets (Cache.bucketIdx hash k)).getLocked k (hash k) =
      .ok (viewResult none) := by
    obtain hnone | ⟨v, val', -, -, hstored, -⟩ := (hs.inv _).getLocked (h := hash k) k
    · exact hnone
    · cases hlast.symm.trans hstored.2.2
  obtain ⟨items, b, hset, hnil, hsettled⟩ := hs.store junk hk hfits hwraps
  refine ⟨items, c.setBucket (Cache.bucketIdx hash k) b, ?_, hnil, rfl, hsettled⟩
  rw [Cache.updateInPlace, updateInPlace_eq hget]
  simp only [Option.map_none, hmutator, Except.bind, Option.elim_none, Slice.source, hset,
    Except.map, bind, pure, Except.pure]

/-- `Update` of a key that has a value, with a mutator that writes to it and asks for nothing to be
stored. -/
theorem updateInPlace_present {E : Type} {k val val' : Bytes} {effect : E} {v : Slice}
    {mutator : Option Bytes → Except Crash (Mutation E)} (hs : Settled hash U c last)
    (junk : Nat → UInt8) (hlast : last k = some val)
    (hmutator : mutator (some val) = .ok ⟨val', effect, .ok (v, false)⟩)
    (hlen : val'.length = val.length) :
    ∃ c', c.updateInPlace hash junk k mutator = .ok (some effect, ⟨.ok (), none⟩, c') ∧
      c'.onEvict = c.onEvict ∧ Settled hash U c' (Function.update last k (some val')) := by
  obtain ⟨pos, hpos, hlive, hrec⟩ := hs.entry hlast
  have hne := ((hs.inv _).entry _ _ hpos).ne_zero (hs.inv _).shape.gen
  have hget : (c.buckets (Cache.bucketIdx hash k)).getLocked k (hash k) = .ok (viewResult (some
      ⟨posOf pos / chunkSize, posOf pos % chunkSize + 4 + k.length, val⟩)) := by
    rw [getLocked_of_record hpos hne hlive hrec, if_pos rfl]
    rfl
  refine ⟨_, ?_, ?_, hs.overwrite hlast hpos hrec hlen⟩
  · rw [Cache.updateInPlace, updateInPlace_eq hget]
    simp only [Option.map_some, hmutator, Except.bind, Option.elim_some, viewResult, Except.map,
      bind, pure, Except.pure]
  · rfl

theorem empty {n : Fin bucketsCount → Nat} (hpos : ∀ i, 0 < n i) (hle : ∀ i, n i ≤ 2 ^ 24)
    (hinj : Set.InjOn hash U) (onEvict : Bool) :
    Settled hash U ⟨fun i ↦ .empty (n i), onEvict⟩ fun _ ↦ none where
  inv i := empty_inv (hpos i) (hle i)
  known := nofun
  inj := hinj
  stored := nofun
  apart _ := ⟨nofun, nofun⟩

/-- `Reset` hands over what every key has, once, and leaves nothing. -/
theorem reset (hs : Settled hash U c last) (honEvict : c.onEvict = true) :
    ∃ out c', c.reset = .ok (out, c') ∧ ((out.evicted.getD []).map Prod.fst).Nodup ∧
      (∀ k val, (k, val) ∈ out.evicted.getD [] ↔ last k = some val) ∧ c'.onEvict = true ∧
      Settled hash U c' fun _ ↦ none := by
  have hmem (k val : Bytes) :
      (k, val) ∈ ((List.finRange bucketsCount).flatMap fun i ↦ liveItems (c.buckets i)) ↔
        last k = some val := by
    rw [hs.inv.keyed.mem_liveItems_iff, ← current_eq_some_iff, hs.current_eq]
  generalize hitems : ((List.finRange bucketsCount).flatMap fun i ↦ liveItems (c.buckets i)) =
    items at hmem
  have hnodup : items.Nodup := hitems ▸ hs.inv.keyed.nodup_liveItems
  have hevicted : (if c.onEvict = true ∧ items ≠ [] then some items else none).getD [] = items :=
    evicted_getD honEvict
  have hall : (List.finRange bucketsCount).flatMap
      (fun i ↦ if c.onEvict then liveItems (c.buckets i) else []) = items := by
    simp only [honEvict, if_true]
    exact hitems
  refine ⟨_, _, reset_eq (fun i ↦ ⟨_, hs.inv i⟩) hall, ?_, ?_, honEvict, ?_⟩
  · rw [hevicted]
    apply hnodup.map_on
    -- a key has one value
    rintro ⟨k, val⟩ hkv ⟨k', val'⟩ hkv' rfl
    have hval := ((hmem k val).mp hkv).symm.trans ((hmem k val').mp hkv')
    rw [Option.some.inj hval]
  · rw [hevicted]
    exact hmem
  · exact .empty (fun i ↦ (hs.inv i).shape.count_pos) (fun i ↦ (hs.inv i).shape.count_le) hs.inj _

end Settled

end CommonLib.XCache
