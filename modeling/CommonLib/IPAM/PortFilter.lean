import CommonLib.IPAM.Netfilter

/-!
# Which ports the port filter matches

The set is built from a greedy pass over the ranges by their lower ends: a range that starts inside
the last one taken is left out, whatever part of it sticks out.  The set holds the listed ports for
every order of the sort exactly when ranges laid end to end never stop at a listed port at which
no range starts, and neither port 0 nor port 65535 is listed.
-/

namespace CommonLib.IPAM

open CommonLib.Reasoning CommonLib.Reasoning.NFTables

def PortRange.Contains (r : PortRange) (q : Nat) : Prop := r.low.toNat ≤ q ∧ q ≤ r.high.toNat

def Listed (ports : List PortRange) (q : Nat) : Prop := ∃ r ∈ ports, r.Contains q

/-- The listed ports at which a range has to start if the block of listed ports around them is to
be covered by ranges laid end to end: the first port of a block, and the port after a range that
starts at such a port. -/
inductive Cut (ports : List PortRange) : Nat → Prop
  | block {q : Nat} : Listed ports (q + 1) → ¬ Listed ports q → Cut ports (q + 1)
  | next {r : PortRange} : r ∈ ports → r.low ≤ r.high → Cut ports r.low.toNat →
      Listed ports (r.high.toNat + 1) → Cut ports (r.high.toNat + 1)

structure Tiled (ports : List PortRange) : Prop where
  zero : ¬ Listed ports 0
  max : ¬ Listed ports 65535
  starts : ∀ q, Cut ports q → ∃ r ∈ ports, r.low ≤ r.high ∧ r.low.toNat = q

/-! ## The ranges the loop takes -/

def kept : List PortRange → Nat → List PortRange
  | [], _ => []
  | r :: rest, highest =>
      if r.low.toNat ≤ highest then kept rest highest else r :: kept rest r.high.toNat

theorem portElements_eq (ports : List PortRange) (highest : UInt16) :
    portElements ports highest = ((kept ports highest.toNat).map fun r ↦
      (nftUint16ToKey r.low, nftUint16ToKey (r.high + 1))).flatMap
        fun p ↦ [⟨p.1, false⟩, ⟨p.2, true⟩] := by
  induction ports generalizing highest with
  | nil => rfl
  | cons r rest ih =>
      unfold portElements kept
      by_cases hle : r.low ≤ highest
      · rw [if_pos hle, if_pos (UInt16.le_iff_toNat_le.mp hle), ih]
      · rw [if_neg hle, if_neg (fun h ↦ hle (UInt16.le_iff_toNat_le.mpr h)), ih]
        rfl

theorem keyValue_nftUint16ToKey (v : UInt16) : keyValue (nftUint16ToKey v) = v.toNat := by
  have hv := v.toNat_lt
  have hshift : (v >>> 8).toUInt8.toNat = v.toNat / 256 := by
    rw [UInt16.toNat_toUInt8, UInt16.toNat_shiftRight]
    change (v.toNat >>> 8) % 256 = _
    rw [Nat.shiftRight_eq_div_pow]
    omega
  unfold keyValue nftUint16ToKey
  simp only [List.foldl_cons, List.foldl_nil, hshift, UInt16.toNat_toUInt8]
  omega

/-- The set holds `q`. -/
def InSet (sorted : List PortRange) (q : Nat) : Prop :=
  ∃ r ∈ kept sorted 0, r.low.toNat ≤ q ∧ q < (r.high + 1).toNat

theorem inInterval_portElements (sorted : List PortRange) (q : Nat) :
    inInterval q (portElements sorted 0) = true ↔ InSet sorted q := by
  rw [portElements_eq, inInterval_pairs]
  simp [InSet, keyValue_nftUint16ToKey]

theorem kept_subset (ports : List PortRange) (h : Nat) : ∀ r ∈ kept ports h, r ∈ ports := by
  induction ports generalizing h with
  | nil => exact fun r hr ↦ hr
  | cons r rest ih =>
      intro r' hr'
      unfold kept at hr'
      split at hr'
      · exact List.mem_cons_of_mem r (ih h r' hr')
      · rcases List.mem_cons.mp hr' with rfl | hr'
        · exact List.mem_cons_self
        · exact List.mem_cons_of_mem r (ih _ r' hr')

/-- The next port after `r`'s upper end, as the code computes it. -/
theorem lt_high_succ {r : PortRange} {q : Nat} (h : q < (r.high + 1).toNat) : q ≤ r.high.toNat := by
  rw [UInt16.toNat_add] at h
  have hone : (1 : UInt16).toNat = 1 := rfl
  have hr := r.high.toNat_lt
  rw [hone] at h
  omega

theorem high_succ {r : PortRange} (h : r.high.toNat ≠ 65535) :
    (r.high + 1).toNat = r.high.toNat + 1 := by
  have hr := r.high.toNat_lt
  rw [UInt16.toNat_add, show (1 : UInt16).toNat = 1 from rfl]
  omega

theorem InSet.listed {ports sorted : List PortRange} (hsort : SortsTo ports sorted) {q : Nat}
    (h : InSet sorted q) : Listed ports q := by
  obtain ⟨r, hr, hlow, hhigh⟩ := h
  exact ⟨r, hsort.1.mem_iff.mp (kept_subset sorted 0 r hr), hlow, lt_high_succ hhigh⟩

/-! ## Tiled ranges are covered -/

/-- The loop has gone past the ranges that start at or below `H`; `sorted` is what is left. -/
structure Pass (ports sorted : List PortRange) (H : Nat) : Prop where
  order : sorted.Pairwise fun r s ↦ r.low ≤ s.low
  sub : ∀ r ∈ sorted, r ∈ ports
  rest : ∀ r ∈ ports, r.low ≤ r.high → r ∈ sorted ∨ r.low.toNat ≤ H
  cut : Listed ports (H + 1) → Cut ports (H + 1)

section Pass

variable {ports sorted : List PortRange} {r : PortRange} {H : Nat}

theorem Pass.min (h : Pass ports (r :: sorted) H) : ∀ r' ∈ sorted, r.low.toNat ≤ r'.low.toNat :=
  fun r' hr' ↦ UInt16.le_iff_toNat_le.mp ((List.pairwise_cons.mp h.order).1 r' hr')

theorem Pass.tail {H' : Nat} (h : Pass ports (r :: sorted) H) (hH : H ≤ H')
    (hr : r.low ≤ r.high → r.low.toNat ≤ H') (hcut : Listed ports (H' + 1) → Cut ports (H' + 1)) :
    Pass ports sorted H' where
  order := (List.pairwise_cons.mp h.order).2
  sub r' hr' := h.sub r' (List.mem_cons_of_mem r hr')
  rest r' hr' hne := by
    rcases h.rest r' hr' hne with hmem | hlow
    · rcases List.mem_cons.mp hmem with rfl | hmem
      · exact .inr (hr hne)
      · exact .inl hmem
    · exact .inr (hlow.trans hH)
  cut := hcut

/-- Nothing is listed between `H` and the lower end of the next range: a range that sticks out
above `H` has another one starting right after `H`. -/
theorem Pass.not_listed_between (h : Pass ports sorted H) (htiled : Tiled ports) {m : Nat}
    (hmin : ∀ r ∈ sorted, m ≤ r.low.toNat) {q : Nat} (hq : H < q) (hqm : q < m) :
    ¬ Listed ports q := by
  rintro ⟨b, hb, hlow, hhigh⟩
  rcases h.rest b hb (UInt16.le_iff_toNat_le.mpr (hlow.trans hhigh)) with hmem | hle
  · have := hmin b hmem
    omega
  · -- `b` lists the port after `H`, so some range `c` starts there and is still to come.
    obtain ⟨c, hc, hcne, hceq⟩ := htiled.starts _ (h.cut ⟨b, hb, by omega, by omega⟩)
    rcases h.rest c hc hcne with hmem | hle'
    · have := hmin c hmem
      omega
    · omega

theorem Pass.gap (h : Pass ports (r :: sorted) H) (htiled : Tiled ports) {q : Nat} (hq : H < q)
    (hqr : q < r.low.toNat) : ¬ Listed ports q := by
  apply h.not_listed_between htiled _ hq hqr
  intro r' hr'
  rcases List.mem_cons.mp hr' with rfl | hr'
  · exact le_rfl
  · exact h.min r' hr'

/-- The next range starts at a cut. -/
theorem Pass.cut_low (h : Pass ports (r :: sorted) H) (htiled : Tiled ports)
    (hH : H < r.low.toNat) (hne : r.low ≤ r.high) : Cut ports r.low.toNat := by
  have hlisted : Listed ports r.low.toNat :=
    ⟨r, h.sub r List.mem_cons_self, le_rfl, UInt16.le_iff_toNat_le.mp hne⟩
  obtain ⟨q, hq⟩ : ∃ q, r.low.toNat = q + 1 := ⟨r.low.toNat - 1, by omega⟩
  rw [hq] at hlisted ⊢
  by_cases hqH : q = H
  · subst hqH
    exact h.cut hlisted
  · exact .block hlisted (h.gap htiled (by omega) (by omega))

/-- The pass from `H` on covers the listed ports above it.  The loop's own variable `highest` may
be lower than `H`, after a range whose ends are the wrong way round; it decides the same. -/
theorem kept_covers (htiled : Tiled ports) (sorted : List PortRange) (highest H : Nat)
    (hpass : Pass ports sorted H)
    (hsame : ∀ r ∈ sorted, r.low.toNat ≤ highest ↔ r.low.toNat ≤ H) {q : Nat} (hq : H < q)
    (hlisted : Listed ports q) : ∃ r ∈ kept sorted highest, r.Contains q := by
  induction sorted generalizing highest H with
  | nil =>
      -- Nothing is left, so nothing above `H` is listed.
      exact absurd hlisted (hpass.not_listed_between htiled (m := q + 1) nofun hq (by omega))
  | cons r sorted ih =>
      have hr := hsame r List.mem_cons_self
      unfold kept
      by_cases hle : r.low.toNat ≤ highest
      · -- The range starts inside what has been taken and is left out.
        rw [if_pos hle]
        exact ih highest H (hpass.tail le_rfl (fun _ ↦ hr.mp hle) hpass.cut)
          (fun r' hr' ↦ hsame r' (List.mem_cons_of_mem r hr')) hq
      rw [if_neg hle]
      have hH : H < r.low.toNat := not_le.mp (fun hH ↦ hle (hr.mpr hH))
      by_cases hempty : r.high.toNat < r.low.toNat
      · -- The ends are the wrong way round: the pair of keys holds nothing.
        have hpass' : Pass ports sorted H := by
          refine hpass.tail le_rfl (fun hne ↦ ?_) hpass.cut
          have := UInt16.le_iff_toNat_le.mp hne
          omega
        obtain ⟨k, hk, hkq⟩ := ih r.high.toNat H hpass' (fun r' hr' ↦ by
          have := hpass.min r' hr'
          omega) hq
        exact ⟨k, List.mem_cons_of_mem r hk, hkq⟩
      have hne : r.low ≤ r.high := UInt16.le_iff_toNat_le.mpr (not_lt.mp hempty)
      by_cases hqr : q ≤ r.high.toNat
      · refine ⟨r, List.mem_cons_self, ?_, hqr⟩
        by_contra hlt
        exact hpass.gap htiled hq (by omega) hlisted
      · -- From here on the pass has reached the upper end of `r`, and the port after it is a cut.
        have hpass' : Pass ports sorted r.high.toNat :=
          hpass.tail (by omega) (fun _ ↦ by omega)
            (.next (hpass.sub r List.mem_cons_self) hne (hpass.cut_low htiled hH hne))
        obtain ⟨k, hk, hkq⟩ := ih r.high.toNat r.high.toNat hpass' (fun _ _ ↦ Iff.rfl) (by omega)
        exact ⟨k, List.mem_cons_of_mem r hk, hkq⟩

end Pass

theorem Tiled.inSet_iff {ports sorted : List PortRange} (htiled : Tiled ports)
    (hsort : SortsTo ports sorted) {q : Nat} : InSet sorted q ↔ Listed ports q := by
  refine ⟨fun h ↦ h.listed hsort, fun hlisted ↦ ?_⟩
  have hpos : 0 < q := by
    rcases Nat.eq_zero_or_pos q with rfl | hpos
    · exact absurd hlisted htiled.zero
    · exact hpos
  have hpass : Pass ports sorted 0 :=
    ⟨hsort.2, fun r hr ↦ hsort.1.mem_iff.mp hr, fun r hr _ ↦ .inl (hsort.1.mem_iff.mpr hr),
      fun hl ↦ .block hl htiled.zero⟩
  obtain ⟨r, hr, hlow, hhigh⟩ :=
    kept_covers htiled sorted 0 0 hpass (fun _ _ ↦ Iff.rfl) hpos hlisted
  have hmem : r ∈ ports := hsort.1.mem_iff.mp (kept_subset sorted 0 r hr)
  have hmax : r.high.toNat ≠ 65535 := fun heq ↦
    htiled.max ⟨r, hmem, by omega, by omega⟩
  exact ⟨r, hr, hlow, by rw [high_succ hmax]; omega⟩

/-! ## Covered ranges are tiled -/

theorem kept_gt {sorted : List PortRange} (hsorted : sorted.Pairwise fun r s ↦ r.low ≤ s.low)
    (h : Nat) : ∀ r ∈ kept sorted h, h < r.low.toNat := by
  induction sorted generalizing h with
  | nil => exact fun r hr ↦ nomatch hr
  | cons r sorted ih =>
      obtain ⟨hfirst, htail⟩ := List.pairwise_cons.mp hsorted
      intro r' hr'
      unfold kept at hr'
      split at hr'
      · exact ih htail h r' hr'
      · rcases List.mem_cons.mp hr' with rfl | hr'
        · omega
        · have hle := UInt16.le_iff_toNat_le.mp (hfirst r' (kept_subset _ _ r' hr'))
          omega

theorem kept_pairwise {sorted : List PortRange} (hsorted : sorted.Pairwise fun r s ↦ r.low ≤ s.low)
    (h : Nat) : (kept sorted h).Pairwise fun r s ↦ r.high.toNat < s.low.toNat := by
  induction sorted generalizing h with
  | nil => exact List.Pairwise.nil
  | cons r sorted ih =>
      obtain ⟨-, htail⟩ := List.pairwise_cons.mp hsorted
      unfold kept
      split
      · exact ih htail h
      · exact List.pairwise_cons.mpr ⟨kept_gt htail _, ih htail _⟩

theorem kept_disjoint {sorted : List PortRange} (hsorted : sorted.Pairwise fun r s ↦ r.low ≤ s.low)
    {h : Nat} {r s : PortRange} (hr : r ∈ kept sorted h) (hs : s ∈ kept sorted h) :
    r = s ∨ r.high.toNat < s.low.toNat ∨ s.high.toNat < r.low.toNat := by
  let Apart (r s : PortRange) : Prop :=
    r = s ∨ r.high.toNat < s.low.toNat ∨ s.high.toNat < r.low.toNat
  have hsymm : Std.Symm Apart := ⟨by
    rintro a b (rfl | hlt | hlt)
    · exact .inl rfl
    · exact .inr (.inr hlt)
    · exact .inr (.inl hlt)⟩
  have hpair : (kept sorted h).Pairwise Apart :=
    (kept_pairwise hsorted h).imp fun hlt ↦ .inr (.inl hlt)
  exact List.Pairwise.forall_of_forall (R := Apart) (fun _ _ ↦ .inl rfl) hpair hr hs

/-- The value of `highest` after a pass. -/
def highestAfter (sorted : List PortRange) (h : Nat) : Nat :=
  match (kept sorted h).getLast? with
  | some r => r.high.toNat
  | none => h

theorem kept_append (xs ys : List PortRange) (h : Nat) :
    kept (xs ++ ys) h = kept xs h ++ kept ys (highestAfter xs h) := by
  induction xs generalizing h with
  | nil => rfl
  | cons r xs ih =>
      rw [List.cons_append]
      by_cases hle : r.low.toNat ≤ h
      · have hkept : kept (r :: xs) h = kept xs h := by rw [kept, if_pos hle]
        rw [kept, if_pos hle, ih]
        unfold highestAfter
        rw [hkept]
      · have hkept : kept (r :: xs) h = r :: kept xs r.high.toNat := by rw [kept, if_neg hle]
        have hhigh : highestAfter (r :: xs) h = highestAfter xs r.high.toNat := by
          unfold highestAfter
          rw [hkept]
          cases hlast : (kept xs r.high.toNat).getLast? with
          | none => rw [List.getLast?_eq_none_iff.mp hlast]; rfl
          | some r' => rw [List.getLast?_cons, hlast]; rfl
        rw [kept, if_neg hle, ih, hkept, hhigh, List.cons_append]

theorem filter_split {sorted : List PortRange} (hsorted : sorted.Pairwise fun r s ↦ r.low ≤ s.low)
    (v : UInt16) : sorted = sorted.filter (·.low < v) ++ sorted.filter (¬ ·.low < v) := by
  induction sorted with
  | nil => rfl
  | cons r sorted ih =>
      obtain ⟨hfirst, htail⟩ := List.pairwise_cons.mp hsorted
      by_cases hr : r.low < v
      · rw [List.filter_cons_of_pos (by simpa using hr), List.filter_cons_of_neg (by simpa using hr),
          List.cons_append, ← ih htail]
      · have hnone : sorted.filter (·.low < v) = [] := by
          rw [List.filter_eq_nil_iff]
          intro r' hr' hlt
          have hle := UInt16.le_iff_toNat_le.mp (hfirst r' hr')
          simp only [decide_eq_true_eq, UInt16.lt_iff_toNat_lt] at hlt hr
          omega
        rw [List.filter_cons_of_neg (by simpa using hr), List.filter_cons_of_pos (by simpa using hr),
          hnone, List.nil_append]
        congr 1
        rw [hnone, List.nil_append] at ih
        exact ih htail

/-- Another order of the sort puts `r` first among the ranges with its lower end; the pass takes it
if it has not gone past that end. -/
theorem exists_sort_kept {ports sorted : List PortRange} (hsort : SortsTo ports sorted)
    {r : PortRange} (hr : r ∈ ports)
    (hhigh : highestAfter (sorted.filter (·.low < r.low)) 0 < r.low.toNat) :
    ∃ sorted', SortsTo ports sorted' ∧ r ∈ kept sorted' 0 := by
  have hmem : r ∈ sorted.filter (¬ ·.low < r.low) := by
    simp [hsort.1.mem_iff.mpr hr]
  let rest := (sorted.filter (¬ ·.low < r.low)).erase r
  have hrest : ∀ r' ∈ rest, r' ∈ sorted.filter (¬ ·.low < r.low) := fun r' hr' ↦
    List.mem_of_mem_erase hr'
  refine ⟨sorted.filter (·.low < r.low) ++ r :: rest, ⟨?_, ?_⟩, ?_⟩
  · have hperm := (List.perm_cons_erase hmem).symm.append_left (sorted.filter (·.low < r.low))
    rw [← filter_split hsort.2 r.low] at hperm
    exact hperm.trans hsort.1
  · rw [List.pairwise_append, List.pairwise_cons]
    refine ⟨hsort.2.sublist List.filter_sublist, ⟨fun r' hr' ↦ ?_, ?_⟩, fun a ha b hb ↦ ?_⟩
    · simpa using (List.mem_filter.mp (hrest r' hr')).2
    · exact (hsort.2.sublist List.filter_sublist).sublist List.erase_sublist
    · have ha' : a.low < r.low := by simpa using (List.mem_filter.mp ha).2
      rcases List.mem_cons.mp hb with rfl | hb
      · exact UInt16.le_of_lt ha'
      · have hb' : r.low ≤ b.low := by simpa using (List.mem_filter.mp (hrest b hb)).2
        exact UInt16.le_trans (UInt16.le_of_lt ha') hb'
  · rw [kept_append]
    apply List.mem_append_right
    rw [kept, if_neg (by omega)]
    exact List.mem_cons_self

theorem highestAfter_eq (sorted : List PortRange) (h : Nat) :
    highestAfter sorted h = h ∨ ∃ r ∈ kept sorted h, highestAfter sorted h = r.high.toNat := by
  unfold highestAfter
  cases hlast : (kept sorted h).getLast? with
  | none => exact .inl rfl
  | some r => exact .inr ⟨r, List.mem_of_getLast? hlast, rfl⟩

/-- If the pass takes `r` and nothing starts above its upper end, it ends there. -/
theorem highestAfter_of_mem {sorted : List PortRange}
    (hsorted : sorted.Pairwise fun r s ↦ r.low ≤ s.low) {r : PortRange} {h : Nat}
    (hr : r ∈ kept sorted h) (hlows : ∀ s ∈ sorted, s.low.toNat ≤ r.high.toNat) :
    highestAfter sorted h = r.high.toNat := by
  obtain ⟨xs, ys, heq⟩ := List.append_of_mem hr
  have hpair := kept_pairwise hsorted h
  rw [heq, List.pairwise_append, List.pairwise_cons] at hpair
  have hnil : ys = [] := by
    refine List.eq_nil_iff_forall_not_mem.mpr fun s hs ↦ ?_
    have hlt := hpair.2.1.1 s hs
    have hmem : s ∈ kept sorted h := by
      rw [heq]
      exact List.mem_append_right _ (List.mem_cons_of_mem r hs)
    have hle := hlows s (kept_subset _ _ s hmem)
    omega
  unfold highestAfter
  rw [heq, hnil]
  simp

theorem exists_sort (ports : List PortRange) : ∃ sorted, SortsTo ports sorted := by
  have htotal : Std.Total fun r s : PortRange ↦ r.low ≤ s.low := ⟨fun r s ↦ UInt16.le_total ..⟩
  have htrans : IsTrans PortRange fun r s ↦ r.low ≤ s.low :=
    ⟨fun _ _ _ h h' ↦ UInt16.le_trans h h'⟩
  exact ⟨ports.insertionSort fun r s ↦ r.low ≤ s.low, List.perm_insertionSort ..,
    List.pairwise_insertionSort ..⟩

/-- If every order of the sort gives the listed ports, then ranges start at all cuts, and each of
them is taken in some order. -/
theorem Cut.start_kept {ports : List PortRange}
    (hall : ∀ sorted, SortsTo ports sorted → ∀ q, Listed ports q → InSet sorted q) {q : Nat}
    (hcut : Cut ports q) :
    (∃ r ∈ ports, r.low ≤ r.high ∧ r.low.toNat = q) ∧
      ∀ r ∈ ports, r.low ≤ r.high → r.low.toNat = q →
        ∃ sorted, SortsTo ports sorted ∧ r ∈ kept sorted 0 := by
  induction hcut with
  | @block q hlisted hnot =>
      refine ⟨?_, fun r hr _ hrq ↦ ?_⟩
      · obtain ⟨r, hr, hlow, hhigh⟩ := hlisted
        refine ⟨r, hr, UInt16.le_iff_toNat_le.mpr (hlow.trans hhigh), ?_⟩
        by_contra hne
        exact hnot ⟨r, hr, by omega, by omega⟩
      · obtain ⟨sorted, hsort⟩ := exists_sort ports
        refine exists_sort_kept hsort hr ?_
        rcases highestAfter_eq (sorted.filter (·.low < r.low)) 0 with heq | ⟨k, hk, heq⟩
        · omega
        · -- A range from below that reaches the block would list the port before it.
          have hmem := List.mem_filter.mp (kept_subset _ _ k hk)
          have hlt : k.low.toNat < r.low.toNat := by
            simpa [UInt16.lt_iff_toNat_lt] using hmem.2
          rw [heq]
          by_contra hge
          exact hnot ⟨k, hsort.1.mem_iff.mp hmem.1, by omega, by omega⟩
  | @next r hr hne hcut hlisted ih =>
      obtain ⟨sorted, hsort, hkept⟩ := ih.2 r hr hne rfl
      have hrle := UInt16.le_iff_toNat_le.mp hne
      refine ⟨?_, fun r' hr' _ hrq ↦ ?_⟩
      · obtain ⟨c, hc, hlow, hhigh⟩ := hall sorted hsort _ hlisted
        have hchigh := lt_high_succ hhigh
        refine ⟨c, hsort.1.mem_iff.mp (kept_subset _ _ c hc),
          UInt16.le_iff_toNat_le.mpr (hlow.trans hchigh), ?_⟩
        rcases kept_disjoint hsort.2 hkept hc with rfl | hlt | hlt
        · omega
        · omega
        · omega
      · refine exists_sort_kept hsort hr' ?_
        have hmem : r ∈ kept (sorted.filter (·.low < r'.low)) 0 := by
          rw [filter_split hsort.2 r'.low, kept_append] at hkept
          rcases List.mem_append.mp hkept with hmem | hmem
          · exact hmem
          · have hnot := (List.mem_filter.mp (kept_subset _ _ r hmem)).2
            simp only [decide_eq_true_eq, UInt16.lt_iff_toNat_lt] at hnot
            omega
        rw [highestAfter_of_mem (hsort.2.sublist List.filter_sublist) hmem]
        · omega
        · intro s hs
          have hlt : s.low.toNat < r'.low.toNat := by
            simpa [UInt16.lt_iff_toNat_lt] using (List.mem_filter.mp hs).2
          omega

theorem tiled_of_inSet {ports : List PortRange}
    (hall : ∀ sorted, SortsTo ports sorted → ∀ q, Listed ports q → InSet sorted q) :
    Tiled ports where
  zero hzero := by
    obtain ⟨sorted, hsort⟩ := exists_sort ports
    obtain ⟨r, hr, hlow, -⟩ := hall sorted hsort 0 hzero
    have hgt := kept_gt hsort.2 0 r hr
    omega
  max hmax := by
    obtain ⟨sorted, hsort⟩ := exists_sort ports
    obtain ⟨r, -, -, hhigh⟩ := hall sorted hsort 65535 hmax
    have hlt := (r.high + 1).toNat_lt
    omega
  starts q hcut := (hcut.start_kept hall).1

/-! ## The verdict on a packet -/

inductive IPVersion
  | v4
  | v6
deriving DecidableEq, Repr

/-- A packet of the protocol for port `d`.  Only the IPv4 header has the protocol at byte 9. -/
structure IsDatagram (v : IPVersion) (proto : ProtocolID) (d : UInt16) (pkt : Packet) : Prop where
  l4proto : pkt.l4proto = proto.id
  network : match v with
    | .v4 => 20 ≤ pkt.network.length ∧ pkt.network[9]? = some proto.id
    | .v6 => 40 ≤ pkt.network.length
  length_le : 4 ≤ pkt.transport.length
  port : (pkt.transport.drop 2).take 2 = nftUint16ToKey d

def ShouldDrop (ports : Option (List PortRange)) (mode : ListMode) (d : UInt16) : Prop :=
  match ports, mode with
  | none, _ => False
  | some l, .blockList => Listed l d.toNat
  | some l, .allowList => ¬ Listed l d.toNat

theorem IsDatagram.network_length {v : IPVersion} {proto : ProtocolID} {d : UInt16} {pkt : Packet}
    (h : IsDatagram v proto d pkt) : 10 ≤ pkt.network.length := by
  have hnet := h.network
  cases v with
  | v4 => exact le_trans (by decide) hnet.1
  | v6 => exact le_trans (by decide) hnet

theorem portRule_run {v : IPVersion} {proto : ProtocolID} {d : UInt16} {pkt : Packet}
    (h : IsDatagram v proto d pkt) (sorted : List PortRange) (verdict : Verdict) :
    Rule.run ⟨[], [.loadL4Proto 1, .cmpEq 1 [proto.id], .payload 1 .transportHeader 2 2,
      .lookup 1 (portElements sorted 0), .counter, .verdict verdict]⟩ pkt =
      if inInterval d.toNat (portElements sorted 0) then some verdict else none := by
  have hlen : 2 + 2 ≤ (pkt.header .transportHeader).length := h.length_le
  have hport : ((pkt.header .transportHeader).drop 2).take 2 = nftUint16ToKey d := h.port
  unfold Rule.run
  simp only [runExprs, Function.update_self, h.l4proto, List.length_singleton, List.take_succ_cons,
    List.take_zero, if_true, if_pos hlen, hport, keyValue_nftUint16ToKey]

theorem protocolRule_run {pkt : Packet} (hlen : 10 ≤ pkt.network.length) (id : UInt8) :
    Rule.run ⟨[], [.payload 1 .networkHeader 9 1, .cmpEq 1 [id], .counter, .verdict .drop]⟩ pkt =
      if pkt.network[9]? = some id then some .drop else none := by
  have hbyte : (pkt.network.drop 9).take 1 = [pkt.network[9]] := by
    rw [List.drop_eq_getElem_cons (by omega), List.take_succ_cons, List.take_zero]
  unfold Rule.run
  rw [runExprs_payload_cmpEq pkt hlen]
  change (if ((pkt.network.drop 9).take 1).take 1 = [id] then some Verdict.drop else none) = _
  rw [hbyte, List.getElem?_eq_getElem (by omega)]
  simp

theorem chainVerdict_drop_iff {v : IPVersion} {proto : ProtocolID} {d : UInt16} {pkt : Packet}
    (h : IsDatagram v proto d pkt) (l sorted : List PortRange) (mode : ListMode) :
    chainVerdict (setBlockedPorts4proto (some l) sorted proto mode) pkt = .drop ↔
      match mode with
      | .blockList => InSet sorted d.toNat
      | .allowList => ¬ InSet sorted d.toNat ∧ pkt.network[9]? = some proto.id := by
  have hset := inInterval_portElements sorted d.toNat
  unfold chainVerdict setBlockedPorts4proto
  cases mode with
  | blockList =>
      simp only [ListMode.isAllowList, Bool.false_eq_true, if_false, List.findSome?_cons,
        List.findSome?_nil, portRule_run h]
      rw [← hset]
      cases inInterval d.toNat (portElements sorted 0) <;> decide
  | allowList =>
      simp only [ListMode.isAllowList, if_true, List.findSome?_cons, List.findSome?_nil,
        portRule_run h, protocolRule_run h.network_length]
      rw [← hset]
      by_cases hproto : pkt.network[9]? = some proto.id
      · rw [if_pos hproto]
        cases inInterval d.toNat (portElements sorted 0) <;> simp [hproto]
      · rw [if_neg hproto]
        cases inInterval d.toNat (portElements sorted 0) <;> simp [hproto]

/-- A packet of each version; `b` is a byte of the IPv6 source address. -/
def datagram (v : IPVersion) (proto : ProtocolID) (b : UInt8) (d : UInt16) : Packet where
  network := match v with
    | .v4 => [0x45, 0, 0, 24, 0, 0, 0, 0, 64, proto.id, 0, 0, 10, 0, 0, 2, 10, 0, 0, 3]
    | .v6 => [0x60, 0, 0, 0, 0, 4, proto.id, 64, 0xfd, b] ++ List.replicate 30 0
  l4proto := proto.id
  transport := [0, 0] ++ nftUint16ToKey d

theorem datagram_isDatagram (v : IPVersion) (proto : ProtocolID) (b : UInt8) (d : UInt16) :
    IsDatagram v proto d (datagram v proto b d) where
  l4proto := rfl
  network := by
    cases v with
    | v4 => exact ⟨le_rfl, rfl⟩
    | v6 => exact le_rfl
  length_le := le_rfl
  port := rfl

theorem datagram_byte (v : IPVersion) (proto : ProtocolID) (d : UInt16) :
    (datagram v proto proto.id d).network[9]? = some proto.id := by
  cases v <;> rfl

section Verdict

variable {l : List PortRange} {proto : ProtocolID} {mode : ListMode} {v : IPVersion}

/-- The filter for the list drops what it should, for every order of the sort and every packet. -/
def FiltersPorts (l : List PortRange) (proto : ProtocolID) (mode : ListMode) (v : IPVersion) :
    Prop :=
  ∀ sorted d pkt, SortsTo l sorted → IsDatagram v proto d pkt →
    (chainVerdict (setBlockedPorts4proto (some l) sorted proto mode) pkt = .drop ↔
      ShouldDrop (some l) mode d)

theorem FiltersPorts.tiled (h : FiltersPorts l proto mode v) : Tiled l := by
  refine tiled_of_inSet fun sorted hsort q hq ↦ ?_
  have hlt : q < 65536 := by
    obtain ⟨r, -, -, hhigh⟩ := hq
    exact lt_of_le_of_lt hhigh r.high.toNat_lt
  have hport : (UInt16.ofNat q).toNat = q := UInt16.toNat_ofNat_of_lt hlt
  -- A packet for port `q` whose byte 9 is the protocol in both versions.
  have hpkt := datagram_isDatagram v proto proto.id (.ofNat q)
  have hdrop := h sorted (.ofNat q) _ hsort hpkt
  rw [chainVerdict_drop_iff hpkt] at hdrop
  cases mode with
  | blockList =>
      rw [ShouldDrop, hport] at hdrop
      exact hdrop.mpr hq
  | allowList =>
      rw [ShouldDrop, hport] at hdrop
      by_contra hnot
      exact hdrop.mp ⟨hnot, datagram_byte ..⟩ hq

/-- Port 0 is not allowed, but the byte the second rule compares is part of the IPv6 address. -/
theorem FiltersPorts.v4 (h : FiltersPorts l proto .allowList v) : v = .v4 := by
  cases v with
  | v4 => rfl
  | v6 =>
      obtain ⟨sorted, hsort⟩ := exists_sort l
      have hpkt := datagram_isDatagram .v6 proto (proto.id + 1) 0
      have hdrop := (h sorted 0 _ hsort hpkt).mpr h.tiled.zero
      rw [chainVerdict_drop_iff hpkt] at hdrop
      have hbyte : some (proto.id + 1) = some proto.id := hdrop.2
      exact absurd (Option.some.inj hbyte) (by simp)

theorem Tiled.filtersPorts (htiled : Tiled l) (hv4 : mode = .allowList → v = .v4) :
    FiltersPorts l proto mode v := by
  intro sorted d pkt hsort hpkt
  rw [chainVerdict_drop_iff hpkt, htiled.inSet_iff hsort]
  cases mode with
  | blockList => rfl
  | allowList =>
      cases hv4 rfl
      exact and_iff_left hpkt.network.2

end Verdict

/-- The filter drops what it should for every order of the sort and every packet exactly when the
ranges are tiled and, with an allow list, the packets are IPv4. -/
theorem drops_iff_tiled (ports : Option (List PortRange)) (proto : ProtocolID) (mode : ListMode)
    (v : IPVersion) :
    (∀ sorted d pkt, (∀ l, ports = some l → SortsTo l sorted) → IsDatagram v proto d pkt →
      (chainVerdict (setBlockedPorts4proto ports sorted proto mode) pkt = .drop ↔
        ShouldDrop ports mode d)) ↔
    ∀ l, ports = some l → Tiled l ∧ (mode = .allowList → v = .v4) := by
  cases ports with
  | none =>
      refine iff_of_true (fun sorted d pkt _ _ ↦ ?_) nofun
      exact iff_of_false nofun id
  | some l =>
      constructor
      · rintro hcorrect l' ⟨⟩
        have hfilters : FiltersPorts l proto mode v := by
          intro sorted d pkt hsort
          apply hcorrect sorted d pkt
          rintro _ ⟨⟩
          exact hsort
        refine ⟨hfilters.tiled, fun hmode ↦ ?_⟩
        subst hmode
        exact hfilters.v4
      · intro htiled sorted d pkt hsort hpkt
        obtain ⟨htiled, hv4⟩ := htiled l rfl
        exact htiled.filtersPorts hv4 sorted d pkt (hsort l rfl) hpkt

/-- Port 50 is in the blocked range 0-100, which the loop skips because it starts at port 0. -/
theorem range_from_zero_unfiltered :
    Listed [⟨0, 100⟩] 50 ∧ SortsTo [⟨0, 100⟩] [⟨0, 100⟩] ∧
      IsDatagram .v4 protocolUDP 50 (datagram .v4 protocolUDP 0 50) ∧
      chainVerdict (setBlockedPorts4proto (some [⟨0, 100⟩]) [⟨0, 100⟩] protocolUDP .blockList)
        (datagram .v4 protocolUDP 0 50) = .accept := by
  refine ⟨⟨_, List.mem_singleton_self _, ?_⟩, ⟨.refl _, ?_⟩, datagram_isDatagram .., by decide⟩
  · unfold PortRange.Contains
    decide
  · exact List.pairwise_singleton ..

/-! ## Both protocols -/

/-- The rules of one protocol leave an IPv4 packet of the other alone. -/
theorem run_other_protocol {proto other : ProtocolID} {d : UInt16} {pkt : Packet}
    (h : IsDatagram .v4 proto d pkt) (hne : proto.id ≠ other.id) (ports : Option (List PortRange))
    (sorted : List PortRange) (mode : ListMode) :
    ∀ rule ∈ setBlockedPorts4proto ports sorted other mode, rule.run pkt = none := by
  have hport : ∀ verdict, Rule.run ⟨[], [.loadL4Proto 1, .cmpEq 1 [other.id],
      .payload 1 .transportHeader 2 2, .lookup 1 (portElements sorted 0), .counter,
      .verdict verdict]⟩ pkt = none := by
    intro verdict
    unfold Rule.run
    rw [runExprs, runExprs, Function.update_self, h.l4proto, if_neg]
    simpa using hne
  have hproto := protocolRule_run h.network_length other.id
  rw [h.network.2, if_neg (fun heq ↦ hne (Option.some.inj heq))] at hproto
  intro rule hrule
  unfold setBlockedPorts4proto at hrule
  cases ports with
  | none => cases hrule
  | some l =>
      cases mode with
      | blockList =>
          rw [List.mem_singleton.mp hrule]
          exact hport _
      | allowList =>
          rcases List.mem_pair.mp hrule with rfl | rfl
          · exact hport _
          · exact hproto

/-- With tiled lists an IPv4 packet of either protocol is dropped as the list of its own protocol
says. -/
theorem fillPortRestrictionRules_drop_iff {ports : PortRestrictionConfig}
    {sortedUDP sortedTCP : List PortRange} {d : UInt16} {pkt : Packet}
    (hudp : ∀ l, ports.udp.ports = some l → Tiled l ∧ SortsTo l sortedUDP)
    (htcp : ∀ l, ports.tcp.ports = some l → Tiled l ∧ SortsTo l sortedTCP) :
    (IsDatagram .v4 protocolUDP d pkt →
      (chainVerdict (fillPortRestrictionRules ports sortedUDP sortedTCP) pkt = .drop ↔
        ShouldDrop ports.udp.ports ports.udp.mode d)) ∧
    (IsDatagram .v4 protocolTCP d pkt →
      (chainVerdict (fillPortRestrictionRules ports sortedUDP sortedTCP) pkt = .drop ↔
        ShouldDrop ports.tcp.ports ports.tcp.mode d)) := by
  have hne : protocolUDP.id ≠ protocolTCP.id := by decide
  unfold fillPortRestrictionRules
  constructor
  · intro hpkt
    rw [chainVerdict_append_left (run_other_protocol hpkt hne _ _ _)]
    cases hports : ports.udp.ports with
    | none => exact iff_of_false nofun id
    | some l =>
        obtain ⟨htiled, hsort⟩ := hudp l hports
        exact htiled.filtersPorts (fun _ ↦ rfl) sortedUDP d pkt hsort hpkt
  · intro hpkt
    rw [chainVerdict_append_right (run_other_protocol hpkt hne.symm _ _ _)]
    cases hports : ports.tcp.ports with
    | none => exact iff_of_false nofun id
    | some l =>
        obtain ⟨htiled, hsort⟩ := htcp l hports
        exact htiled.filtersPorts (fun _ ↦ rfl) sortedTCP d pkt hsort hpkt

/-- Ranges that share no port are tiled, whether or not they touch. -/
theorem tiled_of_disjoint {ports : List PortRange}
    (hends : ∀ r ∈ ports, 0 < r.low ∧ r.high < 65535)
    (hdisjoint : ∀ r ∈ ports, ∀ s ∈ ports, r ≠ s → r.high < s.low ∨ s.high < r.low) :
    Tiled ports where
  zero := by
    rintro ⟨r, hr, hlow, -⟩
    have hpos := UInt16.lt_iff_toNat_lt.mp (hends r hr).1
    exact absurd hlow (not_le.mpr hpos)
  max := by
    rintro ⟨r, hr, -, hhigh⟩
    have hlt := UInt16.lt_iff_toNat_lt.mp (hends r hr).2
    exact absurd hhigh (not_le.mpr hlt)
  starts q hcut := by
    -- A range that holds the port after a cut either starts there or holds the port before too.
    cases hcut with
    | block hlisted hbefore =>
        obtain ⟨r, hr, hlow, hhigh⟩ := hlisted
        refine ⟨r, hr, UInt16.le_iff_toNat_le.mpr (hlow.trans hhigh), ?_⟩
        by_contra hne
        exact hbefore ⟨r, hr, by omega, by omega⟩
    | @next s hs hle _ hlisted =>
        obtain ⟨r, hr, hlow, hhigh⟩ := hlisted
        refine ⟨r, hr, UInt16.le_iff_toNat_le.mpr (hlow.trans hhigh), ?_⟩
        by_contra hne
        have hrs : r ≠ s := by
          rintro rfl
          omega
        rcases hdisjoint r hr s hs hrs with hlt | hlt
        · have := UInt16.lt_iff_toNat_lt.mp hlt
          have := UInt16.le_iff_toNat_le.mp hle
          omega
        · have := UInt16.lt_iff_toNat_lt.mp hlt
          omega

theorem defaultPortRestrictions_tiled :
    (∀ l, defaultPortRestrictions.udp.ports = some l → Tiled l) ∧
      (∀ l, defaultPortRestrictions.tcp.ports = some l → Tiled l) := by
  constructor
  · rintro l ⟨⟩
    exact tiled_of_disjoint (by decide) (by decide)
  · rintro l ⟨⟩
    exact tiled_of_disjoint (by decide) (by decide)

end CommonLib.IPAM
