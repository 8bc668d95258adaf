import CommonLib.XCache.Retention

/-!
# What an `Update` changes

A mutator writes into the ring itself, and the slice it returns may be a part of the ring.  A write
to the value changes that value and nothing else, now and in whatever follows; and what is stored
from a part of the value is what that part held when the mutator returned.
-/

namespace CommonLib.XCache

open CommonLib.Reasoning CommonLib.XError

/-! ## What a table says of the bucket -/

variable {t t' : Table} {b b' : Bucket} {h v : UInt64} {k val val' : Bytes}

/-- What `getLocked` finds when `e` is the entry under `h`. -/
def Bucket.viewOf (b : Bucket) (e : Option (Bytes × Bytes)) (k : Bytes) (h : UInt64) :
    Option View := do
  let v ← b.m.lookup h
  let (k', val) ← e
  if b.isLive v ∧ k = k' then
    some ⟨posOf v / chunkSize, posOf v % chunkSize + 4 + k.length, val⟩
  else none

theorem Laid.getLocked_eq (hl : Laid t b) (k : Bytes) (h : UInt64) :
    b.getLocked k h = .ok (viewResult (b.viewOf (t h) k h)) := by
  cases hv : b.m.lookup h with
  | none =>
      simp only [Bucket.getLocked, Bucket.viewOf, hv]
      rfl
  | some v =>
      have hok := hl.entry h v hv
      have hne := hok.ne_zero hl.shape.gen
      cases hlive : b.isLive v with
      | false =>
          have hview : b.viewOf (t h) k h = none := by
            simp [Bucket.viewOf, hv, hlive]
          rw [hview]
          simp only [Bucket.getLocked, Bucket.locate, hv, Option.getD_some, if_neg hne, hlive]
          rfl
      | true =>
          obtain ⟨k', val, ht, hrec, -⟩ := hok.record_of_live hlive
          have hview : b.viewOf (t h) k h = if k = k' then
              some ⟨posOf v / chunkSize, posOf v % chunkSize + 4 + k.length, val⟩ else none := by
            simp [Bucket.viewOf, hv, hlive, ht]
          rw [getLocked_of_record hv hne hlive hrec, hview]
          split
          next hk =>
            rw [hk]
            rfl
          next => rfl

theorem Laid.itemOf_eq (hl : Laid t b) (hv : b.m.lookup h = some v) :
    itemOf b v = if b.isLive v then t h else none := by
  split
  next hlive =>
    obtain ⟨k, val, ht, hitem⟩ := hl.toInv.itemOf_of_live hv hlive
    rw [hitem, ht]
  next hdead => exact itemOf_of_dead (Bool.not_eq_true _ ▸ hdead)

/-! ## Two buckets that differ in one value -/

/-- Everything but the bytes of the chunks is the same. -/
structure Alike (b b' : Bucket) : Prop where
  m : b'.m = b.m
  idx : b'.idx = b.idx
  gen : b'.gen = b.gen
  count : b'.chunks.length = b.chunks.length

theorem Rewritten.alike (hrw : Rewritten t b h k t' b') : Alike b b' :=
  ⟨hrw.m, hrw.idx, hrw.gen, hrw.count⟩

theorem Alike.trans {b'' : Bucket} (ha : Alike b b') (ha' : Alike b' b'') : Alike b b'' :=
  ⟨ha'.m.trans ha.m, ha'.idx.trans ha.idx, ha'.gen.trans ha.gen, ha'.count.trans ha.count⟩

theorem Alike.symm (ha : Alike b b') : Alike b' b :=
  ⟨ha.m.symm, ha.idx.symm, ha.gen.symm, ha.count.symm⟩

theorem Alike.isLive (ha : Alike b b') (v : UInt64) : b'.isLive v = b.isLive v := by
  simp only [Bucket.isLive, Bucket.bGen, ha.idx, ha.gen]

theorem Alike.viewOf (ha : Alike b b') (e : Option (Bytes × Bytes)) (k : Bytes) (h : UInt64) :
    b'.viewOf e k h = b.viewOf e k h := by
  simp only [Bucket.viewOf, ha.m, ha.isLive]

theorem Alike.nextGen (ha : Alike b b') : b'.nextGen = b.nextGen := by
  rw [Bucket.nextGen, Bucket.nextGen, ha.gen]

theorem Alike.place (ha : Alike b b') (n : Nat) : b'.place n = b.place n := by
  simp only [Bucket.place, ha.idx, ha.count]

/-- The map after a write of `n` bytes under `h`. -/
def Bucket.mapAfter (b : Bucket) (n : Nat) (h : UInt64) : GoMap UInt64 UInt64 :=
  let p := b.place n
  let gen := if p.wraps then b.nextGen else b.gen
  let d : Bucket := ⟨[], b.m.insert h (packed p.start gen), p.start + n, gen⟩
  if p.wraps then if (d.m.filter d.keeps).size = 0 then d.m else d.m.filter d.keeps else d.m

theorem cleanLocked_m {onEvict : Bool} {items : Option Items} {d : Bucket}
    (hclean : b.cleanLocked onEvict = .ok (items, d)) :
    d.m = if (b.m.filter b.keeps).size = 0 then b.m else b.m.filter b.keeps := by
  unfold Bucket.cleanLocked at hclean
  cases hevicted : b.evicted onEvict with
  | error crash =>
      rw [hevicted] at hclean
      cases hclean
  | ok items' =>
      rw [hevicted] at hclean
      cases hclean
      split <;> rfl

theorem store_m {s : Source} {junk : Nat → UInt8} {onEvict : Bool} {items : Option Items}
    {d : Bucket} (hstore : b.store junk k s h onEvict = .ok (items, d)) :
    d.m = b.mapAfter (4 + k.length + s.length) h := by
  unfold Bucket.store at hstore
  unfold Bucket.mapAfter
  cases hwrite : writeEntry b.chunks junk (b.place (4 + k.length + s.length)) k s with
  | error crash =>
      simp only [hwrite, bind, Except.bind] at hstore
      cases hstore
  | ok chunks =>
      simp only [hwrite, bind, Except.bind] at hstore
      cases hwraps : (b.place (4 + k.length + s.length)).wraps with
      | false =>
          simp only [hwraps, Bool.false_eq_true, if_false] at hstore ⊢
          cases hstore
          rfl
      | true =>
          simp only [hwraps, if_true] at hstore ⊢
          -- what a clean keeps does not depend on the chunks
          have hm := cleanLocked_m hstore
          exact hm

theorem setLocked_m {s : Source} {junk : Nat → UInt8} {onEvict : Bool} {items : Option Items}
    {d : Bucket} (hset : b.setLocked junk k s h onEvict = .ok (⟨.ok (), items⟩, d)) :
    d.m = b.mapAfter (4 + k.length + s.length) h :=
  store_m (setLocked_eq_ok hset).2

theorem Alike.mapAfter (ha : Alike b b') (n : Nat) (h : UInt64) :
    b'.mapAfter n h = b.mapAfter n h := by
  unfold Bucket.mapAfter
  rw [ha.place, ha.m, ha.nextGen, ha.gen]

/-- At most the value of `k` under `h` is another one. -/
structure Table.Differs (h : UInt64) (k val val' : Bytes) (t t' : Table) : Prop where
  other : ∀ h' ≠ h, t' h' = t h'
  self : t' h = t h ∨ t h = some (k, val) ∧ t' h = some (k, val')

theorem Table.Differs.update (hd : Table.Differs h k val val' t t') (h₁ : UInt64)
    (e : Option (Bytes × Bytes)) :
    Table.Differs h k val val' (Function.update t h₁ e) (Function.update t' h₁ e) := by
  have hother : ∀ h' ≠ h₁, t' h' = t h' →
      Function.update t' h₁ e h' = Function.update t h₁ e h' := by
    intro h' hne heq
    rw [Function.update_of_ne hne, Function.update_of_ne hne, heq]
  by_cases hh : h = h₁
  · subst hh
    refine ⟨fun h' hne ↦ hother h' hne (hd.other h' hne), .inl ?_⟩
    rw [Function.update_self, Function.update_self]
  · refine ⟨fun h' hne ↦ ?_, ?_⟩
    · by_cases hh' : h' = h₁
      · rw [hh', Function.update_self, Function.update_self]
      · exact hother h' hh' (hd.other h' hne)
    · rw [Function.update_of_ne hh, Function.update_of_ne hh]
      exact hd.self

/-- `b'` is `b` except that the value of `k` under `h` may be `val'` where it is `val` in `b`. -/
structure Twin (h : UInt64) (k val val' : Bytes) (b b' : Bucket) : Prop extends Alike b b' where
  laid : ∃ t t', Laid t b ∧ Laid t' b' ∧ Table.Differs h k val val' t t'

variable {h₁ : UInt64} {k₁ : Bytes}

/-- `getLocked` finds the same in both, or it finds the two values. -/
theorem Alike.view (ha : Alike b b') (hl : Laid t b) (hl' : Laid t' b')
    (hd : Table.Differs h k val val' t t') (k₁ : Bytes) (h₁ : UInt64) :
    ∃ view view', b.getLocked k₁ h₁ = .ok (viewResult view) ∧
      b'.getLocked k₁ h₁ = .ok (viewResult view') ∧ (view' = view ∨ (k₁, h₁) = (k, h) ∧
        ∃ i off, view = some ⟨i, off, val⟩ ∧ view' = some ⟨i, off, val'⟩) := by
  refine ⟨_, _, hl.getLocked_eq k₁ h₁, hl'.getLocked_eq k₁ h₁, ?_⟩
  rw [ha.viewOf]
  by_cases hh : h₁ = h
  · subst hh
    obtain hsame | ⟨hold, hnew⟩ := hd.self
    · rw [hsame]
      exact .inl rfl
    · rw [hold, hnew]
      cases hv : b.m.lookup h₁ with
      | none => simp [Bucket.viewOf, hv]
      | some v =>
          by_cases hfound : b.isLive v = true ∧ k₁ = k
          · simp [Bucket.viewOf, hv, hfound]
          · simp [Bucket.viewOf, hv, hfound]
  · rw [hd.other h₁ hh]
    exact .inl rfl

theorem viewResult_injective : Function.Injective viewResult := by
  intro view view' heq
  cases view <;> cases view' <;> cases heq <;> rfl

/-- Both computations return, and the buckets they leave are twins. -/
def LeaveTwins (h : UInt64) (k val val' : Bytes) {α : Type} (bucket : α → Bucket)
    (x x' : Except Crash α) : Prop :=
  ∃ r r', x = .ok r ∧ x' = .ok r' ∧ Twin h k val val' (bucket r) (bucket r')

theorem LeaveTwins.map {α β : Type} {p : α → Bucket} {q : β → Bucket}
    {x x' : Except Crash α} (ht : LeaveTwins h k val val' p x x') {f : α → β}
    (hf : ∀ r, q (f r) = p r) : LeaveTwins h k val val' q (x.map f) (x'.map f) := by
  obtain ⟨r, r', rfl, rfl, htwin⟩ := ht
  refine ⟨f r, f r', rfl, rfl, ?_⟩
  rwa [hf, hf]

/-- A write to both. -/
theorem Twin.setLocked {s : Source} {v : Bytes} (ht : Twin h k val val' b b')
    (junk : Nat → UInt8) (onEvict : Bool) (hholds : s.Holds b k₁ v) (hholds' : s.Holds b' k₁ v)
    (h₁ : UInt64) :
    LeaveTwins h k val val' Prod.snd (b.setLocked junk k₁ s h₁ onEvict)
      (b'.setLocked junk k₁ s h₁ onEvict) := by
  obtain ⟨t, t', hl, hl', hdiffers⟩ := ht.laid
  obtain ⟨items, d, hset, hfits, hd, hw⟩ | ⟨e, hset, hbig⟩ := hl.setLocked junk onEvict hholds h₁
  · obtain ⟨items', d', hset', -, hd', hw'⟩ | ⟨-, -, hbig⟩ :=
      hl'.setLocked junk onEvict hholds' h₁
    · refine ⟨_, _, hset, hset', ⟨?_, ?_, ?_, ?_⟩, _, _, hd, hd', hdiffers.update h₁ _⟩
      · rw [setLocked_m hset, setLocked_m hset', ht.mapAfter]
      · rw [hw.idx, hw'.idx, ht.place]
      · rw [hw.gen, hw'.gen, ht.place, ht.nextGen, ht.gen]
      · rw [hw.count, hw'.count, ht.count]
    · omega
  · obtain ⟨-, -, -, hfits, -⟩ | ⟨e', hset', -⟩ := hl'.setLocked junk onEvict hholds' h₁
    · omega
    · exact ⟨_, _, hset, hset', ht⟩

/-! ## Whatever follows -/

/-- A call of `Update` with the key `k`, under `h`. -/
def Step.Updates (h : UInt64) (k : Bytes) : Step → Prop
  | .call h' (.update k' _) => (k', h') = (k, h)
  | _ => False

/-- A mutator of another key does the same to both. -/
theorem Twin.mutate (ht : Twin h k val val' b b') (hne : (k₁, h₁) ≠ (k, h)) :
    ∃ view, b.getLocked k₁ h₁ = .ok (viewResult view) ∧
      b'.getLocked k₁ h₁ = .ok (viewResult view) ∧
      ∀ bs : Bytes, bs.length = ((view.map (·.bytes)).getD []).length →
        Twin h k val val' (view.elim b fun w ↦ b.overwrite w bs)
            (view.elim b' fun w ↦ b'.overwrite w bs) ∧
          ∀ s : Slice, (s.source view).Holds (view.elim b fun w ↦ b.overwrite w bs) k₁
              (s.bytes (view.map fun _ ↦ bs)) ∧
            (s.source view).Holds (view.elim b' fun w ↦ b'.overwrite w bs) k₁
              (s.bytes (view.map fun _ ↦ bs)) := by
  obtain ⟨t, t', hl, hl', hdiffers⟩ := ht.laid
  obtain ⟨view, hget, hmutate⟩ := hl.mutate h₁ k₁
  obtain ⟨view', hget', hmutate'⟩ := hl'.mutate h₁ k₁
  obtain ⟨w, w', hw, hw', hview⟩ := ht.view hl hl' hdiffers k₁ h₁
  cases viewResult_injective (Except.ok.inj (hget.symm.trans hw))
  cases viewResult_injective (Except.ok.inj (hget'.symm.trans hw'))
  obtain rfl := hview.resolve_right fun heq ↦ hne heq.1
  refine ⟨_, hget, hget', fun bs hlen ↦ ?_⟩
  obtain ⟨hrw, hholds⟩ := hmutate bs hlen
  obtain ⟨hrw', hholds'⟩ := hmutate' bs hlen
  refine ⟨⟨(hrw.alike.symm.trans ht.toAlike).trans hrw'.alike, _, _, hrw.laid, hrw'.laid, ?_⟩,
    fun s ↦ ⟨hholds s, hholds' s⟩⟩
  cases view' with
  | none => exact hdiffers
  | some _ => exact hdiffers.update h₁ _

variable {junk : Nat → UInt8} {onEvict : Bool}

theorem Twin.update (ht : Twin h k val val' b b') (mutator : Rewriter)
    (hne : (k₁, h₁) ≠ (k, h)) :
    LeaveTwins h k val val' Prod.snd (b.call junk onEvict h₁ (.update k₁ mutator))
      (b'.call junk onEvict h₁ (.update k₁ mutator)) := by
  obtain ⟨view, hget, hget', hmutate⟩ := ht.mutate hne
  rw [Bucket.call, Bucket.call, updateInPlace_eq hget, updateInPlace_eq hget']
  simp only [Except.bind]
  have hlen := mutator.length_slice (view.map (·.bytes))
  generalize mutator.run (view.map (·.bytes)) = mutation at hlen
  obtain ⟨htwin, hholds⟩ := hmutate mutation.slice hlen
  refine LeaveTwins.map (p := fun r ↦ r.2.2) ?_ fun _ ↦ rfl
  cases mutation.reply with
  | error e => exact ⟨_, _, rfl, rfl, htwin⟩
  | ok reply =>
      obtain ⟨v, update⟩ := reply
      cases update with
      | false => exact ⟨_, _, rfl, rfl, htwin⟩
      | true =>
          exact (htwin.setLocked junk onEvict (hholds v).1 (hholds v).2 h₁).map fun _ ↦ rfl

theorem Twin.getSet (ht : Twin h k val val' b b') (k₁ : Bytes) (h₁ : UInt64)
    (provider : Except GoError Bytes) :
    LeaveTwins h k val val' Prod.snd (b.call junk onEvict h₁ (.getSet k₁ provider))
      (b'.call junk onEvict h₁ (.getSet k₁ provider)) := by
  obtain ⟨t, t', hl, hl', hdiffers⟩ := ht.laid
  obtain ⟨view, view', hget, hget', hview⟩ := ht.view hl hl' hdiffers k₁ h₁
  rw [Bucket.call, Bucket.call, getSet_eq hget, getSet_eq hget']
  refine LeaveTwins.map (p := Prod.snd) ?_ fun _ ↦ rfl
  obtain rfl | ⟨-, i, off, rfl, rfl⟩ := hview
  · cases view' with
    | some w => exact ⟨_, _, rfl, rfl, ht⟩
    | none =>
        cases provider with
        | error e => exact ⟨_, _, rfl, rfl, ht⟩
        | ok v =>
            exact (ht.setLocked (s := .own v) (v := v) junk onEvict rfl rfl h₁).map fun _ ↦ rfl
  · -- the value is there in both, so that the provider is not asked
    exact ⟨_, _, rfl, rfl, ht⟩

theorem Twin.del (ht : Twin h k val val' b b') (h₁ : UInt64) :
    Twin h k val val' (b.del h₁) (b'.del h₁) := by
  obtain ⟨t, t', hl, hl', hdiffers⟩ := ht.laid
  refine ⟨⟨?_, ht.idx, ht.gen, ht.count⟩, _, _, hl.del h₁, hl'.del h₁, hdiffers.update h₁ none⟩
  rw [Bucket.del, Bucket.del, ht.m]

theorem Twin.call (ht : Twin h k val val' b b') (r : Call)
    (hother : ¬ (Step.call h₁ r).Updates h k) :
    LeaveTwins h k val val' Prod.snd (b.call junk onEvict h₁ r) (b'.call junk onEvict h₁ r) := by
  cases r with
  | set k₁ v => exact (ht.setLocked (s := .own v) (v := v) junk onEvict rfl rfl h₁).map fun _ ↦ rfl
  | update k₁ mutator => exact ht.update mutator hother
  | getSet k₁ provider => exact ht.getSet k₁ h₁ provider
  | get k₁ =>
      obtain ⟨t, t', hl, hl', -⟩ := ht.laid
      rw [Bucket.call, Bucket.call, Bucket.get, Bucket.get, hl.getLocked_eq, hl'.getLocked_eq]
      exact ⟨_, _, rfl, rfl, ht⟩
  | del k₁ => exact ⟨_, _, rfl, rfl, ht.del h₁⟩

theorem Twin.reset (ht : Twin h k val val' b b') (out : Bool) :
    LeaveTwins h k val val' Prod.snd (b.reset out) (b'.reset out) := by
  obtain ⟨t, t', hl, hl', -⟩ := ht.laid
  rw [hl.toInv.reset, hl'.toInv.reset, ht.count]
  have hempty : Laid t (.empty b.chunks.length) := empty_laid hl.shape.count_pos hl.shape.count_le
  exact ⟨_, _, rfl, rfl, ⟨rfl, rfl, rfl, rfl⟩, t, t, hempty, hempty, fun _ _ ↦ rfl, .inl rfl⟩

theorem Twin.turn (ht : Twin h k val val' b b') {turn : Turn} (hother : ¬ turn.step.Updates h k) :
    LeaveTwins h k val val' Prod.snd (b.turn turn) (b'.turn turn) := by
  obtain ⟨junk, onEvict, step⟩ := turn
  cases step with
  | call h₁ r => exact ht.call r hother
  | reset out => exact (ht.reset out).map fun _ ↦ rfl

/-! ## What can be told of twins -/

theorem Alike.itemOf_eq (ha : Alike b b') (hl : Laid t b) (hl' : Laid t' b')
    (hv : b.m.lookup h = some v) (heq : t' h = t h) : itemOf b' v = itemOf b v := by
  rw [hl.itemOf_eq hv, hl'.itemOf_eq (ha.m ▸ hv), ha.isLive, heq]

/-- Twins whose entries under `h` stand for the same. -/
theorem Alike.liveItems_of_same (ha : Alike b b') (hl : Laid t b) (hl' : Laid t' b')
    (hd : Table.Differs h k val val' t t')
    (hself : ∀ v, b.m.lookup h = some v → itemOf b' v = itemOf b v) :
    liveItems b' = liveItems b := by
  rw [liveItems, liveItems, ha.m]
  refine List.filterMap_congr fun e he ↦ ?_
  have hv : b.m.lookup e.1 = some e.2 := AList.mem_lookup_iff.mpr he
  by_cases hh : e.1 = h
  · exact hself e.2 (hh ▸ hv)
  · exact ha.itemOf_eq hl hl' hv (hd.other e.1 hh)

/-- Twins whose entries under `h` can be read. -/
theorem Alike.liveItems_of_live (ha : Alike b b') (hl : Laid t b) (hl' : Laid t' b')
    (hd : Table.Differs h k val val' t t') (hv : b.m.lookup h = some v)
    (hitem : itemOf b v = some (k, val)) (hitem' : itemOf b' v = some (k, val')) :
    ∃ before after, liveItems b = before ++ (k, val) :: after ∧
      liveItems b' = before ++ (k, val') :: after := by
  obtain ⟨l₁, l₂, hentries, hne⟩ := GoMap.entries_eq_of_lookup hv
  have hother : ∀ e ∈ l₁ ++ l₂, itemOf b' e.2 = itemOf b e.2 := by
    intro e he
    have hmem : e ∈ b.m.entries := by
      rw [hentries]
      exact List.mem_append.mpr ((List.mem_append.mp he).imp id (List.mem_cons_of_mem _))
    exact ha.itemOf_eq hl hl' (AList.mem_lookup_iff.mpr hmem) (hd.other e.1 (hne e he))
  have hbefore := List.filterMap_congr fun e he ↦ hother e (List.mem_append_left l₂ he)
  have hafter := List.filterMap_congr fun e he ↦ hother e (List.mem_append_right l₁ he)
  refine ⟨l₁.filterMap fun e ↦ itemOf b e.2, l₂.filterMap fun e ↦ itemOf b e.2, ?_, ?_⟩
  · rw [liveItems, hentries, List.filterMap_append, List.filterMap_cons, hitem]
  · rw [liveItems, ha.m, hentries, List.filterMap_append, List.filterMap_cons, hitem', hbefore,
      hafter]

theorem Laid.get_eq (hl : Laid t b) (k : Bytes) (h : UInt64) :
    b.get k h = .ok ((viewResult (b.viewOf (t h) k h)).map (·.bytes)) := by
  rw [Bucket.get, hl.getLocked_eq]
  rfl

theorem Laid.get_of_live (hl : Laid t b) (hv : b.m.lookup h = some v) (hlive : b.isLive v = true)
    (ht : t h = some (k, val)) : b.get k h = .ok (.ok val) := by
  rw [hl.get_eq, ht]
  simp [Bucket.viewOf, hv, hlive, viewResult, Except.map]

theorem Twin.reported (ht : Twin h k val val' b b') :
    b'.get k h = b.get k h ∧ liveItems b' = liveItems b ∨
      b.get k h = .ok (.ok val) ∧ b'.get k h = .ok (.ok val') ∧ ∃ before after,
        liveItems b = before ++ (k, val) :: after ∧
          liveItems b' = before ++ (k, val') :: after := by
  obtain ⟨t, t', hl, hl', hdiffers⟩ := ht.laid
  have hsame := ht.liveItems_of_same hl hl' hdiffers
  obtain heq | ⟨hold, hnew⟩ := hdiffers.self
  · refine .inl ⟨?_, hsame fun v hv ↦ ht.itemOf_eq hl hl' hv heq⟩
    rw [hl.get_eq, hl'.get_eq, ht.viewOf, heq]
  cases hv : b.m.lookup h with
  | none =>
      refine .inl ⟨?_, hsame fun v hv' ↦ nomatch hv.symm.trans hv'⟩
      rw [hl.get_eq, hl'.get_eq, ht.viewOf, hold, hnew]
      simp [Bucket.viewOf, hv]
  | some v =>
      have hv' : b'.m.lookup h = some v := ht.m ▸ hv
      cases hlive : b.isLive v with
      | false =>
          refine .inl ⟨?_, hsame fun w hw ↦ ?_⟩
          · rw [hl.get_eq, hl'.get_eq, ht.viewOf, hold, hnew]
            simp [Bucket.viewOf, hv, hlive]
          · cases hv.symm.trans hw
            rw [itemOf_of_dead hlive, itemOf_of_dead ((ht.isLive v).trans hlive)]
      | true =>
          have hlive' : b'.isLive v = true := (ht.isLive v).trans hlive
          refine .inr ⟨hl.get_of_live hv hlive hold, hl'.get_of_live hv' hlive' hnew,
            ht.liveItems_of_live hl hl' hdiffers hv ?_ ?_⟩
          · rw [hl.itemOf_eq hv, if_pos hlive, hold]
          · rw [hl'.itemOf_eq hv', if_pos hlive', hnew]

/-- The two buckets answer every `Get` but that of `k` under `h` alike, and `Reset` reports the same
pairs, or the same but for the value of `k`. -/
structure SameBut (h : UInt64) (k val val' : Bytes) (b b' : Bucket) : Prop where
  get : ∀ k' h', (k', h') ≠ (k, h) → b'.get k' h' = b.get k' h'
  reset : ∃ items items' d, b.reset true = .ok (items, d) ∧ b'.reset true = .ok (items', d) ∧
    (b'.get k h = b.get k h ∧ items' = items ∨
      b.get k h = .ok (.ok val) ∧ b'.get k h = .ok (.ok val') ∧
        ∃ before after, items = before ++ (k, val) :: after ∧ items' = before ++ (k, val') :: after)

theorem Twin.sameBut (ht : Twin h k val val' b b') : SameBut h k val val' b b' where
  get k' h' hne := by
    obtain ⟨t, t', hl, hl', hdiffers⟩ := ht.laid
    obtain ⟨view, view', hget, hget', hview⟩ := ht.view hl hl' hdiffers k' h'
    obtain rfl := hview.resolve_right fun heq ↦ hne heq.1
    rw [Bucket.get, Bucket.get, hget, hget']
  reset := by
    obtain ⟨t, t', hl, hl', -⟩ := ht.laid
    refine ⟨liveItems b, liveItems b', .empty b.chunks.length, hl.toInv.reset true, ?_,
      ht.reported⟩
    rw [hl'.toInv.reset, ht.count]
    rfl

/-! ## Updates -/

/-- The slice that `Update` hands out for a live value, and what a write to it does. -/
theorem Laid.mutate_live (hl : Laid t b) (hlive : b.get k h = .ok (.ok val)) :
    ∃ v w, b.m.lookup h = some v ∧ b.isLive v = true ∧ t h = some (k, val) ∧
      kvLen k val < chunkSize ∧ b.getLocked k h = .ok (viewResult (some w)) ∧ w.bytes = val ∧
      ∀ bs : Bytes, bs.length = val.length →
        Rewritten t b h k (Function.update t h (some (k, bs))) (b.overwrite w bs) ∧
          ∀ s : Slice, (s.source (some w)).Holds (b.overwrite w bs) k (s.bytes (some bs)) := by
  obtain ⟨view, hget, hmutate⟩ := hl.mutate h k
  obtain hnone | ⟨v, val', hv, hlive', ht, hrec, -, hsome⟩ := hl.toInv.getLocked (h := h) k
  · rw [Bucket.get, hnone] at hlive
    cases hlive
  · rw [Bucket.get, hsome] at hlive
    cases hlive
    rw [hsome] at hget
    cases view with
    | none => cases hget
    | some w =>
        cases hget
        have hfits : kvLen k val' < chunkSize := (Nat.le_add_left ..).trans_lt hrec.fits
        exact ⟨v, _, hv, hlive', ht, hfits, hsome, rfl, hmutate⟩

/-- A write to a live value through the slice that `Update` hands out changes that value only: every
other `Get` and the report of a `Reset` are as they would have been without it, right away and after
whatever calls and resets follow, except an `Update` that reads the value. -/
theorem update_in_place (maxBytes : UInt64) (b₀ b : Bucket) (hinit : Bucket.init maxBytes = .ok b₀)
    (earlier : List Turn) (outs : List (Outcome (Option Bytes)))
    (hrun : runAll Bucket.turn earlier b₀ = .ok (outs, b)) (junk : Nat → UInt8) (onEvict : Bool)
    (h : UInt64) (k val : Bytes) (hlive : b.get k h = .ok (.ok val)) (mutator : Rewriter) (x : Slice)
    (hreply : (mutator.run (some val)).reply = .ok (x, false)) :
    ∃ b', b.call junk onEvict h (.update k mutator) = .ok (⟨.ok none, none⟩, b') ∧
      b'.get k h = .ok (.ok (mutator.run (some val)).slice) ∧
      SameBut h k val (mutator.run (some val)).slice b b' ∧
      ∀ later : List Turn, (∀ turn ∈ later, ¬ turn.step.Updates h k) →
        ∃ outs₁ d outs₂ d', runAll Bucket.turn later b = .ok (outs₁, d) ∧
          runAll Bucket.turn later b' = .ok (outs₂, d') ∧
          SameBut h k val (mutator.run (some val)).slice d d' := by
  obtain ⟨⟨t, hl⟩, -⟩ := init_laid hinit earlier hrun
  obtain ⟨v, w, hv, hlive', ht, -, hget, rfl, hmutate⟩ := hl.mutate_live hlive
  obtain ⟨hrw, -⟩ := hmutate _ (mutator.length_slice (some w.bytes))
  have htwin : Twin h k w.bytes (mutator.run (some w.bytes)).slice b
      (b.overwrite w (mutator.run (some w.bytes)).slice) :=
    ⟨hrw.alike, _, _, hl, hrw.laid, hrw.other, .inr ⟨ht, Function.update_self ..⟩⟩
  refine ⟨b.overwrite w (mutator.run (some w.bytes)).slice, ?_, ?_, htwin.sameBut,
    fun later hlater ↦ ?_⟩
  · rw [Bucket.call, updateInPlace_eq hget]
    simp only [Except.bind, Option.map_some, hreply]
    rfl
  · exact hrw.laid.get_of_live (hrw.m ▸ hv) ((hrw.alike.isLive v).trans hlive')
      (Function.update_self ..)
  · have hstep : ∀ turn (d d' : Bucket), ¬ turn.step.Updates h k →
        Twin h k w.bytes (mutator.run (some w.bytes)).slice d d' →
        ∃ out e out' e', d.turn turn = .ok (out, e) ∧ d'.turn turn = .ok (out', e') ∧
          Twin h k w.bytes (mutator.run (some w.bytes)).slice e e' := by
      intro turn d d' hother htwin
      obtain ⟨⟨out, e⟩, ⟨out', e'⟩, hturn, hturn', htwin'⟩ := htwin.turn hother
      exact ⟨out, e, out', e', hturn, hturn', htwin'⟩
    obtain ⟨outs₁, d, outs₂, d', hrun₁, hrun₂, hd⟩ :=
      runAll_lockstep hstep later b _ hlater htwin
    exact ⟨outs₁, d, outs₂, d', hrun₁, hrun₂, hd.sameBut⟩

/-- A mutator that adds one to each byte. -/
def Rewriter.bump (reply : Slice × Bool) : Rewriter where
  run v := ⟨(v.getD []).map (· + 1), (), .ok reply⟩
  length_slice _ := List.length_map ..

theorem update_in_place_bump : ∃ b₀ b outs, Bucket.init 65537 = .ok b₀ ∧
    runAll Bucket.turn [⟨fun _ ↦ 7, true, .call 3 (.set [1] [2, 3])⟩,
      ⟨fun _ ↦ 7, true, .call 5 (.set [4] [6])⟩] b₀ = .ok (outs, b) ∧
    b.get [1] 3 = .ok (.ok [2, 3]) ∧
    ∃ b', b.call (fun _ ↦ 7) true 3 (.update [1] (.bump (.own [], false))) =
        .ok (⟨.ok none, none⟩, b') ∧
      b'.get [1] 3 = .ok (.ok [3, 4]) ∧ SameBut 3 [1] [2, 3] [3, 4] b b' ∧
      ∀ later : List Turn, (∀ turn ∈ later, ¬ turn.step.Updates 3 [1]) →
        ∃ outs₁ d outs₂ d', runAll Bucket.turn later b = .ok (outs₁, d) ∧
          runAll Bucket.turn later b' = .ok (outs₂, d') ∧ SameBut 3 [1] [2, 3] [3, 4] d d' :=
  ⟨_, _, _, rfl, rfl, rfl, update_in_place 65537 _ _ rfl
    [⟨fun _ ↦ 7, true, .call 3 (.set [1] [2, 3])⟩, ⟨fun _ ↦ 7, true, .call 5 (.set [4] [6])⟩] _ rfl
    (fun _ ↦ 7) true 3 [1] [2, 3] rfl (.bump (.own [], false)) _ rfl⟩

/-- What is stored from a part of the slice that `Update` hands out is what that part held when the
mutator returned, wherever in the ring it is written. -/
theorem update_self_aliasing (maxBytes : UInt64) (b₀ b : Bucket)
    (hinit : Bucket.init maxBytes = .ok b₀) (earlier : List Turn)
    (outs : List (Outcome (Option Bytes)))
    (hrun : runAll Bucket.turn earlier b₀ = .ok (outs, b)) (junk : Nat → UInt8) (onEvict : Bool)
    (h : UInt64) (k val : Bytes) (hlive : b.get k h = .ok (.ok val)) (mutator : Rewriter)
    (off len : Nat) (hreply : (mutator.run (some val)).reply = .ok (.part off len, true)) :
    ∃ items b', b.call junk onEvict h (.update k mutator) = .ok (⟨.ok none, items⟩, b') ∧
      b'.get k h = .ok (.ok (((mutator.run (some val)).slice.drop off).take len)) := by
  obtain ⟨⟨t, hl⟩, -⟩ := init_laid hinit earlier hrun
  obtain ⟨-, w, -, -, -, hfits, hget, rfl, hmutate⟩ := hl.mutate_live hlive
  have hlen := mutator.length_slice (some w.bytes)
  obtain ⟨hrw, hholds⟩ := hmutate _ hlen
  obtain ⟨items, b', hset, hfits', hl', hw⟩ | ⟨-, -, hbig⟩ :=
    hrw.laid.setLocked junk onEvict (hholds (.part off len)) h
  · refine ⟨items, b', ?_, ?_⟩
    · rw [Bucket.call, updateInPlace_eq hget]
      simp only [Except.bind, Option.map_some, hreply, Option.elim_some]
      rw [hset]
      rfl
    · have hretains : b'.Retains h 0 := hw.since hrw.laid.toInv hfits'
      exact hretains.get hl' hl'.shape.count_pos (Function.update_self ..)
  · -- a part is no longer than the value
    have hle : (((mutator.run (some w.bytes)).slice.drop off).take len).length ≤ w.bytes.length := by
      rw [List.length_take, List.length_drop, hlen]
      exact (Nat.min_le_right ..).trans (Nat.sub_le ..)
    unfold kvLen at hfits hbig
    simp only [Slice.bytes, Option.getD_some] at hbig
    omega

theorem update_self_aliasing_bump : ∃ b₀ b outs, Bucket.init 1 = .ok b₀ ∧
    runAll Bucket.turn [⟨fun _ ↦ 7, true, .call 3 (.set [1] [2, 3, 4])⟩] b₀ = .ok (outs, b) ∧
    b.get [1] 3 = .ok (.ok [2, 3, 4]) ∧
    ∃ items b', b.call (fun _ ↦ 7) true 3 (.update [1] (.bump (.part 1 2, true))) =
        .ok (⟨.ok none, items⟩, b') ∧ b'.get [1] 3 = .ok (.ok [4, 5]) :=
  ⟨_, _, _, rfl, rfl, rfl, update_self_aliasing 1 _ _ rfl
    [⟨fun _ ↦ 7, true, .call 3 (.set [1] [2, 3, 4])⟩] _ rfl (fun _ ↦ 7) true 3 [1] [2, 3, 4] rfl
    (.bump (.part 1 2, true)) 1 2 rfl⟩

end CommonLib.XCache
