import CommonLib.XCache.Calls

/-!
# How long an entry stays

Each chunk the write index starts takes it one chunk further round the ring.  It comes back to the
chunk of an entry only when it has started as many chunks as there are, so until then the entry can
be read, in whatever generation the ring is.
-/

namespace CommonLib.XCache

open CommonLib.Reasoning CommonLib.XError

/-! ## Chunks that are started -/

/-- Between `b` and `b'` the write index went on to the next chunk or back to the first one. -/
def Bucket.starts (b b' : Bucket) : Bool :=
  b'.gen != b.gen || b'.idx / chunkSize != b.idx / chunkSize

/-- The write index has started `s` chunks since it was in that of the position in `v`. -/
def Bucket.Since (b : Bucket) (v : UInt64) (s : Nat) : Prop :=
  (genOf v).toNat = b.bGen.toNat ∧ posOf v < b.idx ∧
      b.idx / chunkSize = posOf v / chunkSize + s ∨
    PrevGen (genOf v).toNat b.bGen.toNat ∧
      b.idx / chunkSize + b.chunks.length = posOf v / chunkSize + s

variable {P : UInt64 → Bytes → Bytes → Prop} {t : Table} {b b' : Bucket} {h v : UInt64}
  {k val : Bytes} {s : Nat}

theorem Bucket.place_chunk {n : Nat} (hidx : b.idx < b.chunks.length * chunkSize)
    (hlen : n < chunkSize) :
    ((b.place n).fresh = true → (b.place n).wraps = false →
      (b.place n).start / chunkSize = b.idx / chunkSize + 1) ∧
    ((b.place n).wraps = true →
      (b.place n).fresh = true ∧ b.idx / chunkSize + 1 = b.chunks.length) := by
  unfold place
  dsimp only
  unfold chunkSize at *
  split
  · split
    · simp only [Bool.true_eq_false, false_imp_iff, imp_self, true_and, true_imp_iff]
      omega
    · simp only [true_imp_iff, Bool.false_eq_true, false_imp_iff, and_true]
      omega
  · simp

/-- An entry ends in the chunk it starts in. -/
theorem Written.chunk (hinv : Inv P b) (hfits : kvLen k val < chunkSize)
    (hw : Written b b' h k val) :
    b'.idx / chunkSize = (b.place (kvLen k val)).start / chunkSize := by
  obtain ⟨-, hend, -⟩ := Bucket.place_spec hinv.shape.count_pos hinv.shape.idx hfits
  rw [hw.idx]
  unfold chunkSize at *
  omega

theorem nextGen_ne (b : Bucket) : b.nextGen ≠ b.gen := by
  obtain ⟨hnext, -⟩ := b.nextGen_spec
  intro hsame
  rw [hsame, bGen_toNat] at hnext
  unfold PrevGen at hnext
  omega

theorem Written.starts (hinv : Inv P b) (hfits : kvLen k val < chunkSize)
    (hw : Written b b' h k val) : b.starts b' = (b.place (kvLen k val)).fresh := by
  obtain ⟨-, -, -, hsame, -⟩ :=
    Bucket.place_spec hinv.shape.count_pos hinv.shape.idx hfits
  obtain ⟨hon, hback⟩ := Bucket.place_chunk hinv.shape.idx hfits
  rw [Bucket.starts, hw.gen, hw.chunk hinv hfits]
  cases hwraps : (b.place (kvLen k val)).wraps with
  | true =>
      have hne := nextGen_ne b
      rw [(hback hwraps).1]
      simp [hne]
  | false =>
      cases hfresh : (b.place (kvLen k val)).fresh with
      | true => simp [hon hfresh hwraps]
      | false => simp [hsame hfresh]

theorem Bucket.Since.isLive (hsince : b.Since v s) (hs : s < b.chunks.length) :
    b.isLive v = true := by
  rw [Bucket.isLive_iff]
  obtain ⟨hgen, hlt, -⟩ | ⟨hprev, hchunk⟩ := hsince
  · exact .inl ⟨hgen, hlt⟩
  · -- the index is in a chunk before that of the entry
    refine .inr ⟨hprev, ?_⟩
    unfold chunkSize at hchunk
    omega

theorem Bucket.Since.written (hsince : b.Since v s) (hinv : Inv P b)
    (hin : posOf v / chunkSize < b.chunks.length) (hfits : kvLen k val < chunkSize)
    (hw : Written b b' h k val) (hs : s + (b.starts b').toNat < b.chunks.length) :
    b'.Since v (s + (b.starts b').toNat) := by
  obtain ⟨-, -, -, hsame, hzero, hafter⟩ :=
    Bucket.place_spec hinv.shape.count_pos hinv.shape.idx hfits
  obtain ⟨hon, hback⟩ := Bucket.place_chunk hinv.shape.idx hfits
  obtain ⟨hnext, -⟩ := b.nextGen_spec
  have hgen : b'.bGen.toNat = b'.gen.toNat % 2 ^ 24 := bGen_toNat b'
  have hidx := hw.idx
  unfold Bucket.Since at hsince ⊢
  rw [hw.starts hinv hfits] at hs ⊢
  rw [hgen, hw.gen, hw.count, hw.chunk hinv hfits]
  cases hwraps : (b.place (kvLen k val)).wraps with
  | true =>
      -- the entry was of the generation that has ended, or the index would be in its chunk again
      obtain ⟨hfresh, hlast⟩ := hback hwraps
      rw [hfresh, Bool.toNat_true] at hs ⊢
      rw [hzero hwraps, Nat.zero_div]
      right
      obtain ⟨hcurrent, -, hchunk⟩ | ⟨-, hchunk⟩ := hsince
      · refine ⟨?_, by omega⟩
        rw [if_pos rfl, hcurrent]
        exact hnext
      · omega
  | false =>
      have hbefore := hafter hwraps
      rw [if_neg Bool.false_ne_true, ← bGen_toNat b]
      -- the index is in the chunk it was in, or in the next one
      have hchunk : (b.place (kvLen k val)).start / chunkSize =
          b.idx / chunkSize + (b.place (kvLen k val)).fresh.toNat := by
        cases hfresh : (b.place (kvLen k val)).fresh with
        | true => exact hon hfresh hwraps
        | false => rw [hsame hfresh]; rfl
      obtain ⟨hcurrent, hlt, hsince⟩ | ⟨hprev, hsince⟩ := hsince
      · exact .inl ⟨hcurrent, by omega, by omega⟩
      · exact .inr ⟨hprev, by omega⟩

theorem Written.since (hinv : Inv P b) (hfits : kvLen k val < chunkSize)
    (hw : Written b b' h k val) :
    ∃ v, b'.m.lookup h = some v ∧ b'.Since v 0 := by
  obtain ⟨hin, -⟩ := Bucket.place_spec hinv.shape.count_pos hinv.shape.idx hfits
  have hs := position_lt hinv.shape hin
  refine ⟨_, hw.self, .inl ⟨?_, ?_, ?_⟩⟩
  · rw [genOf_packed _ hs, bGen_toNat]
  · have hlen := kvLen_pos k val
    rw [posOf_packed _ hs, hw.idx]
    omega
  · rw [posOf_packed _ hs]
    exact hw.chunk hinv hfits

/-! ## An entry that can still be read -/

/-- The entry under `h` is as many chunks back as there were started since. -/
def Bucket.Retains (b : Bucket) (h : UInt64) (s : Nat) : Prop :=
  ∃ v, b.m.lookup h = some v ∧ b.Since v s

theorem Bucket.Retains.of_same (hr : b.Retains h s) (hm : b'.m.lookup h = b.m.lookup h)
    (hidx : b'.idx = b.idx) (hgen : b'.gen = b.gen)
    (hcount : b'.chunks.length = b.chunks.length) : b'.Retains h s := by
  obtain ⟨v, hv, hsince⟩ := hr
  refine ⟨v, hm.trans hv, ?_⟩
  unfold Bucket.Since Bucket.bGen at *
  rw [hidx, hgen, hcount]
  exact hsince

theorem Bucket.Retains.written {h' : UInt64} (hr : b.Retains h s) (hinv : Inv P b) (hne : h ≠ h')
    (hfits : kvLen k val < chunkSize) (hw : Written b b' h' k val)
    (hs : s + (b.starts b').toNat < b.chunks.length) : b'.Retains h (s + (b.starts b').toNat) := by
  obtain ⟨v, hv, hsince⟩ := hr
  have hlive : b.isLive v = true := hsince.isLive (by omega)
  obtain ⟨_, _, -, hrec, -⟩ := (hinv.entry h v hv).record_of_live hlive
  obtain ⟨chunk, hchunk, -⟩ := hrec.bytes
  have hsince' := hsince.written hinv (List.getElem?_eq_some_iff.mp hchunk).1 hfits hw hs
  -- a clean keeps the entry, since it is live
  exact ⟨v, hw.keep h hne v hv (hsince'.isLive (hw.count ▸ hs)), hsince'⟩

theorem Bucket.Retains.get (hr : b.Retains h s) (hl : Laid t b) (hs : s < b.chunks.length)
    (ht : t h = some (k, val)) : b.get k h = .ok (.ok val) := by
  obtain ⟨v, hv, hsince⟩ := hr
  have hok := hl.entry h v hv
  have hlive := hsince.isLive hs
  obtain ⟨k', val', ht', hrec, -⟩ := hok.record_of_live hlive
  cases ht.symm.trans ht'
  rw [Bucket.get, getLocked_of_record hv (hok.ne_zero hl.shape.gen) hlive hrec, if_pos rfl]
  rfl

theorem starts_of_same (hidx : b'.idx = b.idx) (hgen : b'.gen = b.gen) : b.starts b' = false := by
  rw [Bucket.starts, hidx, hgen, bne_self_eq_false, bne_self_eq_false]
  rfl

/-- A call under another hash. -/
theorem Called.retains {h' : UInt64} {r : Call} {out : Outcome (Option Bytes)} {t' : Table}
    (hc : Called t b h' r out t' b') (hr : b.Retains h s) (hne : h ≠ h')
    (hs : s + (b.starts b').toNat < b.chunks.length) :
    b'.Retains h (s + (b.starts b').toNat) ∧ t' h = t h := by
  cases hc with
  | kept _ hrw =>
      rw [starts_of_same hrw.idx hrw.gen]
      exact ⟨hr.of_same (by rw [hrw.m]) hrw.idx hrw.gen hrw.count, hrw.other h hne⟩
  | @stored _ b₁ _ _ _ _ hrw hfits hw _ =>
      have hstarts : b.starts b' = b₁.starts b' := by
        rw [Bucket.starts, Bucket.starts, hrw.gen, hrw.idx]
      have hr₁ : b₁.Retains h s := hr.of_same (by rw [hrw.m]) hrw.idx hrw.gen hrw.count
      rw [hstarts] at hs ⊢
      refine ⟨hr₁.written hrw.laid.toInv hne hfits hw (hrw.count ▸ hs), ?_⟩
      rw [Function.update_of_ne hne, hrw.other h hne]
  | deleted _ _ =>
      rw [show b.starts (b.del h') = false from starts_of_same rfl rfl]
      refine ⟨hr.of_same ?_ rfl rfl rfl, Function.update_of_ne hne ..⟩
      rw [lookup_del, if_neg hne]

/-! ## Runs -/

inductive Step
  | call (h : UInt64) (r : Call)
  | reset (out : Bool)

/-- A step on a bucket, with what a new chunk holds and whether there is a callback. -/
structure Turn where
  junk : Nat → UInt8
  onEvict : Bool
  step : Step

def Bucket.turn (turn : Turn) (b : Bucket) : Except Crash (Outcome (Option Bytes) × Bucket) :=
  match turn.step with
  | .call h r => b.call turn.junk turn.onEvict h r
  | .reset out => (b.reset out).map fun (items, b) ↦ (⟨.ok none, some items⟩, b)

/-- A call under another hash than `h`. -/
def Turn.Spares (h : UInt64) (turn : Turn) : Prop :=
  ∃ h' r, turn.step = .call h' r ∧ h ≠ h'

/-- A bucket, with the number of chunks that have been started. -/
structure Counted where
  bucket : Bucket
  started : Nat

def Counted.turn (turn : Turn) (s : Counted) :
    Except Crash (Outcome (Option Bytes) × Counted) :=
  (s.bucket.turn turn).map fun (out, b) ↦ (out, ⟨b, s.started + (s.bucket.starts b).toNat⟩)

theorem turn_laid (turn : Turn) (hl : Laid t b) :
    ∃ out b' t', b.turn turn = .ok (out, b') ∧ Laid t' b' ∧
      b'.chunks.length = b.chunks.length := by
  unfold Bucket.turn
  cases turn.step with
  | call h r =>
      obtain ⟨out, b', t', hcall, hcalled⟩ := hl.call turn.junk turn.onEvict h r
      exact ⟨out, b', t', hcall, hcalled.laid, hcalled.count⟩
  | reset out =>
      have hreset : (b.reset out).map (fun (items, b) ↦
          ((⟨.ok none, some items⟩ : Outcome (Option Bytes)), b)) = .ok
            (⟨.ok none, some (if out then liveItems b else [])⟩, .empty b.chunks.length) := by
        rw [hl.toInv.reset]
        rfl
      exact ⟨_, _, t, hreset, empty_laid hl.shape.count_pos hl.shape.count_le,
        List.length_replicate⟩

theorem init_laid {maxBytes : UInt64} {b₀ : Bucket} (hinit : Bucket.init maxBytes = .ok b₀)
    (earlier : List Turn) {outs : List (Outcome (Option Bytes))}
    (hrun : runAll Bucket.turn earlier b₀ = .ok (outs, b)) :
    (∃ t, Laid t b) ∧ b.chunks.length = b₀.chunks.length := by
  obtain ⟨n, hpos, hle, rfl⟩ := init_eq hinit
  have hstep : ∀ turn (b : Bucket), True → ((∃ t, Laid t b) ∧ b.chunks.length = n) →
      ∃ out b', b.turn turn = .ok (out, b') ∧ (∃ t, Laid t b') ∧ b'.chunks.length = n := by
    rintro turn b - ⟨⟨t, hl⟩, hcount⟩
    obtain ⟨out, b', t', hturn, hl', hcount'⟩ := turn_laid turn hl
    exact ⟨out, b', hturn, ⟨t', hl'⟩, hcount'.trans hcount⟩
  obtain ⟨outs', b', hrun', hlaid, hcount⟩ := runAll_invariant hstep earlier (.empty n)
    (fun _ _ ↦ trivial) ⟨⟨fun _ ↦ none, empty_laid hpos hle⟩, List.length_replicate⟩
  cases hrun.symm.trans hrun'
  exact ⟨hlaid, hcount.trans List.length_replicate.symm⟩

/-- Until as many chunks have been started as there are, the entry is kept. -/
structure Counted.Keeps (n : Nat) (h : UInt64) (k val : Bytes) (s : Counted) : Prop where
  count : s.bucket.chunks.length = n
  laid : ∃ t, Laid t s.bucket ∧ (s.started < n → s.bucket.Retains h s.started ∧ t h = some (k, val))

theorem Counted.Keeps.turn {n : Nat} {s : Counted} {turn : Turn} (hkeeps : s.Keeps n h k val)
    (hspares : turn.Spares h) :
    ∃ out s', Counted.turn turn s = .ok (out, s') ∧ s'.Keeps n h k val := by
  obtain ⟨hcount, t, hl, hretains⟩ := hkeeps
  obtain ⟨h', r, hstep, hne⟩ := hspares
  obtain ⟨out, b', t', hcall, hcalled⟩ := hl.call turn.junk turn.onEvict h' r
  have hturn : s.bucket.turn turn = .ok (out, b') := by
    rw [Bucket.turn, hstep]
    exact hcall
  refine ⟨out, ⟨b', s.started + (s.bucket.starts b').toNat⟩, ?_, hcalled.count.trans hcount, t',
    hcalled.laid, fun hlt ↦ ?_⟩
  · rw [Counted.turn, hturn]
    rfl
  · dsimp only at hlt
    obtain ⟨hr, ht⟩ := hretains (by omega)
    obtain ⟨hr', ht'⟩ := hcalled.retains hr hne (hcount ▸ hlt)
    exact ⟨hr', ht'.trans ht⟩

/-- What has been stored can be read until as many chunks have been started as there are. -/
theorem stored_retained (maxBytes : UInt64) (b₀ b b' : Bucket)
    (hinit : Bucket.init maxBytes = .ok b₀) (earlier : List Turn)
    (outs : List (Outcome (Option Bytes)))
    (hrun : runAll Bucket.turn earlier b₀ = .ok (outs, b)) (junk : Nat → UInt8) (onEvict : Bool)
    (h : UInt64) (r : Call) (v : Bytes) (out : Outcome (Option Bytes))
    (hcall : b.call junk onEvict h r = .ok (out, b'))
    (hstored : r.stored (b.current r.key h) = some v) (hok : out.result.isOk = true)
    (later : List Turn) (hlater : ∀ turn ∈ later, turn.Spares h) :
    ∃ outs' s, runAll Counted.turn later ⟨b', 0⟩ = .ok (outs', s) ∧
      (s.started < b₀.chunks.length → s.bucket.get r.key h = .ok (.ok v)) := by
  obtain ⟨⟨t, hl⟩, hcount⟩ := init_laid hinit earlier hrun
  obtain ⟨out', b'', t', hcall', hcalled⟩ := hl.call junk onEvict h r
  cases hcall.symm.trans hcall'
  have hkeeps : (⟨b', 0⟩ : Counted).Keeps b₀.chunks.length h r.key v := by
    refine ⟨hcalled.count.trans hcount, t', hcalled.laid, fun _ ↦ ?_⟩
    cases hcalled with
    | kept hno _ =>
        rw [hstored, hok] at hno
        simp at hno
    | stored hval _ hrw hfits hw _ =>
        cases hstored.symm.trans hval
        exact ⟨hw.since hrw.laid.toInv hfits, Function.update_self ..⟩
    | deleted hno _ => cases hstored.symm.trans hno
  have hstep : ∀ turn (s : Counted), turn.Spares h → s.Keeps b₀.chunks.length h r.key v →
      ∃ out s', Counted.turn turn s = .ok (out, s') ∧ s'.Keeps b₀.chunks.length h r.key v :=
    fun _ _ hspares hs ↦ hs.turn hspares
  obtain ⟨outs', s, hrun', hcount', t'', hl'', hretains⟩ :=
    runAll_invariant hstep later ⟨b', 0⟩ hlater hkeeps
  refine ⟨outs', s, hrun', fun hlt ↦ ?_⟩
  obtain ⟨hr, ht⟩ := hretains hlt
  exact hr.get hl'' (hcount' ▸ hlt) ht

theorem stored_retained_small : ∃ b₀ b b' outs out, Bucket.init 65537 = .ok b₀ ∧
    runAll Bucket.turn [⟨fun _ ↦ 7, true, .call 3 (.set [1] [2, 3])⟩] b₀ = .ok (outs, b) ∧
    b.call (fun _ ↦ 7) true 5 (.set [4] [6]) = .ok (out, b') ∧
    ∃ outs' s, runAll Counted.turn [⟨fun _ ↦ 7, true, .call 3 (.set [1] [9])⟩] ⟨b', 0⟩ =
        .ok (outs', s) ∧
      (s.started < b₀.chunks.length → s.bucket.get [4] 5 = .ok (.ok [6])) := by
  refine ⟨_, _, _, _, _, rfl, rfl, rfl, ?_⟩
  refine stored_retained 65537 _ _ _ rfl [⟨fun _ ↦ 7, true, .call 3 (.set [1] [2, 3])⟩] _ rfl
    (fun _ ↦ 7) true 5 (.set [4] [6]) [6] _ rfl rfl rfl _
    fun turn hturn ↦ ⟨3, .set [1] [9], ?_, by decide⟩
  rw [List.mem_singleton.mp hturn]

end CommonLib.XCache
