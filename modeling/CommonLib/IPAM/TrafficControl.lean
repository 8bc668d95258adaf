import CommonLib.Reasoning.GoMap
import CommonLib.XNet.IP

/-!
# Traffic control

A limited address has an HTB class with the rate and a filter that sends its packets to that class.
The wrapper remembers the filter's handle.  Netlink calls are checked by the kernel and may also
fail for reasons of their own; a call that fails changes nothing.
-/

namespace CommonLib.IPAM

open CommonLib.Reasoning CommonLib.XNet

abbrev Rate := UInt64

structure HtbClass where
  handle : UInt32
  rate : Rate
deriving DecidableEq, Repr

structure U32Filter where
  -- Assigned by the kernel.
  handle : Nat
  val : UInt32
  classId : UInt32
deriving DecidableEq, Repr

inductive NetlinkCall
  | classAdd | filterAdd | filterList | filterDel | classDel
deriving DecidableEq, Repr

inductive TcError
  | alreadySet | addClass | addFilter | listFilters | loadBack | notSet | deleteFilter | deleteClass
deriving DecidableEq, Repr

def makeHandle (major minor : UInt16) : UInt32 := major.toUInt32 <<< 16 ||| minor.toUInt32

def handleForIP (ip : UInt32) : UInt32 := makeHandle 1 (0xfff &&& ip).toUInt16

def defaultClassID : UInt16 := 0x999

/-- The wrapper together with the classes and filters of its interface. -/
structure TcWrapper where
  ipToFilterHandler : GoMap UInt32 Nat
  classes : List HtbClass
  filters : List U32Filter

namespace TcWrapper

/-- After `init`: the default class at 1 Mbit/s and the parent class. -/
def new (parentRate : Rate) : TcWrapper where
  ipToFilterHandler := ∅
  classes := [⟨makeHandle 1 defaultClassID, 1000000⟩, ⟨makeHandle 1 1, parentRate⟩]
  filters := []

def classHandles (tc : TcWrapper) : List UInt32 := tc.classes.map (·.handle)

def classAdd (tc : TcWrapper) (fails : Bool) (class' : HtbClass) : Option TcWrapper :=
  if fails ∨ class'.handle ∈ tc.classHandles then none
  else some { tc with classes := tc.classes ++ [class'] }

def freshHandle (tc : TcWrapper) : Nat := (tc.filters.map (·.handle)).foldr max 0 + 1

def filterAdd (tc : TcWrapper) (fails : Bool) (val classId : UInt32) : Option TcWrapper :=
  if fails then none
  else some { tc with filters := tc.filters ++ [⟨tc.freshHandle, val, classId⟩] }

def filterDel (tc : TcWrapper) (fails : Bool) (handle : Nat) : Option TcWrapper :=
  if fails ∨ handle ∉ tc.filters.map (·.handle) then none
  else some { tc with filters := tc.filters.filter (·.handle ≠ handle) }

def classDel (tc : TcWrapper) (fails : Bool) (handle : UInt32) : Option TcWrapper :=
  if fails ∨ handle ∉ tc.classHandles then none
  else some { tc with classes := tc.classes.filter (·.handle ≠ handle) }

/-- `setLimit` for a rate that is not zero. -/
def addLimit (tc : TcWrapper) (fails : NetlinkCall → Bool) (ip : UInt32) (rate : Rate) :
    Except TcError Unit × TcWrapper :=
  if (tc.ipToFilterHandler.lookup ip).isSome then (.error .alreadySet, tc)
  else
    match tc.classAdd (fails .classAdd) ⟨handleForIP ip, rate⟩ with
    | none => (.error .addClass, tc)
    | some tc₁ =>
        match tc₁.filterAdd (fails .filterAdd) ip (handleForIP ip) with
        | none => (.error .addFilter, tc₁)
        | some tc₂ =>
            if fails .filterList then (.error .listFilters, tc₂)
            else
              -- `isSameFilter` compares the address.
              match tc₂.filters.find? (·.val = ip) with
              | none => (.error .loadBack, tc₂)
              | some f =>
                  (.ok (), { tc₂ with
                    ipToFilterHandler := tc₂.ipToFilterHandler.insert ip f.handle })

def setLimit (tc : TcWrapper) (fails : NetlinkCall → Bool) (addr : IP) (rate : Rate) :
    Except Crash (Except TcError Unit × TcWrapper) :=
  if rate = 0 then .ok (.ok (), tc) else addr.toUint32.map fun ip ↦ tc.addLimit fails ip rate

def dropLimit (tc : TcWrapper) (fails : NetlinkCall → Bool) (ip : UInt32) :
    Except TcError Unit × TcWrapper :=
  match tc.ipToFilterHandler.lookup ip with
  | none => (.error .notSet, tc)
  | some handleID =>
      match tc.filterDel (fails .filterDel) handleID with
      | none => (.error .deleteFilter, tc)
      | some tc₁ =>
          match tc₁.classDel (fails .classDel) (handleForIP ip) with
          | none => (.error .deleteClass, tc₁)
          | some tc₂ =>
              (.ok (), { tc₂ with ipToFilterHandler := tc₂.ipToFilterHandler.erase ip })

def removeLimit (tc : TcWrapper) (fails : NetlinkCall → Bool) (addr : IP) :
    Except Crash (Except TcError Unit × TcWrapper) :=
  addr.toUint32.map fun ip ↦ tc.dropLimit fails ip

/-- The rate the kernel holds the address to. -/
def limitOf (tc : TcWrapper) (ip : UInt32) : Option Rate :=
  (tc.filters.find? (·.val = ip)).bind fun f ↦
    (tc.classes.find? (·.handle = f.classId)).map (·.rate)

/-! ## The wrapper and the kernel agree -/

structure Consistent (tc : TcWrapper) : Prop where
  recorded : ∀ ip h, tc.ipToFilterHandler.lookup ip = some h ↔
    ∃ f ∈ tc.filters, f.val = ip ∧ f.handle = h
  handles : (tc.filters.map (·.handle)).Nodup
  vals : (tc.filters.map (·.val)).Nodup
  classes : tc.classHandles.Nodup
  classId : ∀ f ∈ tc.filters, f.classId = handleForIP f.val
  present : ∀ f ∈ tc.filters, f.classId ∈ tc.classHandles
  own : ∀ f ∈ tc.filters, ∀ g ∈ tc.filters, f.classId = g.classId → f = g

theorem new_consistent (parentRate : Rate) : (new parentRate).Consistent where
  recorded ip h := by simp [new]
  handles := List.nodup_nil
  vals := List.nodup_nil
  classes := show [makeHandle 1 defaultClassID, makeHandle 1 1].Nodup by decide
  classId := nofun
  present := nofun
  own := nofun

theorem Consistent.limitOf_eq_some {tc : TcWrapper} (h : tc.Consistent) {ip : UInt32}
    {rate : Rate} : tc.limitOf ip = some rate ↔
      ∃ f ∈ tc.filters, f.val = ip ∧ ⟨f.classId, rate⟩ ∈ tc.classes := by
  unfold limitOf
  rw [Option.bind_eq_some_iff]
  apply exists_congr
  intro f
  rw [find?_key_eq_some_iff h.vals, Option.map_eq_some_iff, and_assoc]
  apply and_congr_right'
  apply and_congr_right'
  constructor
  · rintro ⟨c, hc, rfl⟩
    obtain ⟨hmem, hhandle⟩ := (find?_key_eq_some_iff h.classes).mp hc
    rw [← hhandle]
    exact hmem
  · intro hc
    exact ⟨_, (find?_key_eq_some_iff h.classes).mpr ⟨hc, rfl⟩, rfl⟩

theorem Consistent.limitOf_eq_none {tc : TcWrapper} (h : tc.Consistent) {ip : UInt32} :
    tc.limitOf ip = none ↔ ∀ f ∈ tc.filters, f.val ≠ ip := by
  rw [Option.eq_none_iff_forall_ne_some]
  constructor
  · intro hnone f hf hval
    obtain ⟨c, hc, hhandle⟩ := List.mem_map.mp (h.present f hf)
    refine hnone c.rate (h.limitOf_eq_some.mpr ⟨f, hf, hval, ?_⟩)
    rw [← hhandle]
    exact hc
  · intro hval rate hsome
    obtain ⟨f, hf, hfval, -⟩ := h.limitOf_eq_some.mp hsome
    exact hval f hf hfval

theorem Consistent.lookup_eq_none {tc : TcWrapper} (h : tc.Consistent) {ip : UInt32} :
    tc.ipToFilterHandler.lookup ip = none ↔ tc.limitOf ip = none := by
  rw [h.limitOf_eq_none, Option.eq_none_iff_forall_ne_some]
  constructor
  · intro hnone f hf hval
    exact hnone f.handle ((h.recorded ip f.handle).mpr ⟨f, hf, hval, rfl⟩)
  · intro hval handle hsome
    obtain ⟨f, hf, hfval, -⟩ := (h.recorded ip handle).mp hsome
    exact hval f hf hfval

theorem lt_freshHandle (tc : TcWrapper) {f : U32Filter} (hf : f ∈ tc.filters) :
    f.handle < tc.freshHandle := by
  have hmem : f.handle ∈ tc.filters.map (·.handle) := List.mem_map_of_mem hf
  unfold freshHandle
  generalize tc.filters.map (·.handle) = hs at hmem
  induction hs with
  | nil => cases hmem
  | cons x hs ih =>
      rw [List.foldr_cons]
      rcases List.mem_cons.mp hmem with rfl | hmem
      · omega
      · have := ih hmem
        omega

/-- The kernel with a class and a filter for `ip`, and the wrapper that knows of them. -/
def withLimit (tc : TcWrapper) (ip : UInt32) (rate : Rate) : TcWrapper where
  ipToFilterHandler := tc.ipToFilterHandler.insert ip tc.freshHandle
  classes := tc.classes ++ [⟨handleForIP ip, rate⟩]
  filters := tc.filters ++ [⟨tc.freshHandle, ip, handleForIP ip⟩]

def withoutLimit (tc : TcWrapper) (ip : UInt32) (handleID : Nat) : TcWrapper where
  ipToFilterHandler := tc.ipToFilterHandler.erase ip
  classes := tc.classes.filter (·.handle ≠ handleForIP ip)
  filters := tc.filters.filter (·.handle ≠ handleID)

/-- No netlink call fails for a reason of its own. -/
def noFailure : NetlinkCall → Bool := fun _ ↦ false

theorem addLimit_eq {tc : TcWrapper} (h : tc.Consistent) {ip : UInt32}
    (hnone : tc.limitOf ip = none) (hclass : handleForIP ip ∉ tc.classHandles) (rate : Rate) :
    tc.addLimit noFailure ip rate = (.ok (), tc.withLimit ip rate) := by
  have hfind : tc.filters.find? (·.val = ip) = none := by
    rw [List.find?_eq_none]
    intro f hf
    simpa using h.limitOf_eq_none.mp hnone f hf
  unfold addLimit
  rw [h.lookup_eq_none.mpr hnone]
  simp [classAdd, filterAdd, noFailure, hclass, hfind, withLimit, freshHandle]

theorem addLimit_error {tc : TcWrapper} {ip : UInt32} (hclass : handleForIP ip ∈ tc.classHandles)
    (rate : Rate) : ∃ e, tc.addLimit noFailure ip rate = (.error e, tc) := by
  unfold addLimit
  split
  · exact ⟨_, rfl⟩
  · simp [classAdd, hclass]

theorem mem_withLimit_filters {tc : TcWrapper} {ip : UInt32} {rate : Rate} {f : U32Filter} :
    f ∈ (tc.withLimit ip rate).filters ↔
      f ∈ tc.filters ∨ f = ⟨tc.freshHandle, ip, handleForIP ip⟩ := by
  simp [withLimit]

theorem withLimit_consistent {tc : TcWrapper} (h : tc.Consistent) {ip : UInt32}
    (hnone : tc.limitOf ip = none) (hclass : handleForIP ip ∉ tc.classHandles) (rate : Rate) :
    (tc.withLimit ip rate).Consistent := by
  have hval := h.limitOf_eq_none.mp hnone
  have hnew : ∀ f ∈ tc.filters, f.classId ≠ handleForIP ip :=
    fun f hf heq ↦ hclass (heq ▸ h.present f hf)
  refine ⟨fun ip' handle ↦ ?_, ?_, ?_, ?_, fun f hf ↦ ?_, fun f hf ↦ ?_, fun f hf g hg heq ↦ ?_⟩
  · simp only [mem_withLimit_filters, or_and_right, exists_or, exists_eq_left]
    by_cases hip : ip' = ip
    · subst hip
      have hold : ¬ ∃ f ∈ tc.filters, f.val = ip' ∧ f.handle = handle :=
        fun ⟨f, hf, hfval, _⟩ ↦ hval f hf hfval
      simp [withLimit, hold]
    · simp [withLimit, AList.lookup_insert_ne hip, h.recorded, Ne.symm hip]
  · simp only [withLimit, List.map_append, List.map_cons, List.map_nil]
    refine h.handles.append (List.nodup_singleton _) ?_
    rintro x hx hx'
    obtain ⟨f, hf, rfl⟩ := List.mem_map.mp hx
    exact absurd (List.mem_singleton.mp hx') (lt_freshHandle tc hf).ne
  · simp only [withLimit, List.map_append, List.map_cons, List.map_nil]
    refine h.vals.append (List.nodup_singleton _) ?_
    rintro x hx hx'
    obtain ⟨f, hf, rfl⟩ := List.mem_map.mp hx
    exact hval f hf (List.mem_singleton.mp hx')
  · simp only [classHandles, withLimit, List.map_append, List.map_cons, List.map_nil]
    refine h.classes.append (List.nodup_singleton _) ?_
    rintro x hx hx'
    exact hclass (List.mem_singleton.mp hx' ▸ hx)
  · rcases mem_withLimit_filters.mp hf with hf | rfl
    · exact h.classId f hf
    · rfl
  · simp only [classHandles, withLimit, List.map_append, List.mem_append]
    rcases mem_withLimit_filters.mp hf with hf | rfl
    · exact .inl (h.present f hf)
    · exact .inr (List.mem_singleton_self _)
  · -- The class of the new filter is new, so no other filter names it.
    rcases mem_withLimit_filters.mp hf with hf | rfl
    · rcases mem_withLimit_filters.mp hg with hg | rfl
      · exact h.own f hf g hg heq
      · exact absurd heq (hnew f hf)
    · rcases mem_withLimit_filters.mp hg with hg | rfl
      · exact absurd heq.symm (hnew g hg)
      · rfl

theorem limitOf_withLimit {tc : TcWrapper} (h : tc.Consistent) {ip : UInt32}
    (hnone : tc.limitOf ip = none) (hclass : handleForIP ip ∉ tc.classHandles) (rate : Rate)
    (ip' : UInt32) :
    (tc.withLimit ip rate).limitOf ip' = if ip' = ip then some rate else tc.limitOf ip' := by
  have hnew := withLimit_consistent h hnone hclass rate
  by_cases hip : ip' = ip
  · rw [if_pos hip, hnew.limitOf_eq_some]
    exact ⟨_, mem_withLimit_filters.mpr (.inr rfl), hip.symm, by simp [withLimit]⟩
  · rw [if_neg hip]
    apply Option.ext
    intro rate'
    rw [hnew.limitOf_eq_some, h.limitOf_eq_some]
    constructor
    · rintro ⟨f, hf, hfval, hc⟩
      rcases mem_withLimit_filters.mp hf with hf | rfl
      · refine ⟨f, hf, hfval, ?_⟩
        have hne : f.classId ≠ handleForIP ip := fun heq ↦ hclass (heq ▸ h.present f hf)
        simpa [withLimit, hne] using hc
      · exact absurd hfval.symm hip
    · rintro ⟨f, hf, hfval, hc⟩
      exact ⟨f, mem_withLimit_filters.mpr (.inl hf), hfval, List.mem_append_left _ hc⟩

theorem dropLimit_eq {tc : TcWrapper} (h : tc.Consistent) {ip : UInt32} {handleID : Nat}
    (hlookup : tc.ipToFilterHandler.lookup ip = some handleID) :
    tc.dropLimit noFailure ip = (.ok (), tc.withoutLimit ip handleID) := by
  obtain ⟨f, hf, hval, hhandle⟩ := (h.recorded ip handleID).mp hlookup
  have hmem : handleID ∈ tc.filters.map (·.handle) := List.mem_map.mpr ⟨f, hf, hhandle⟩
  have hclass : handleForIP ip ∈ tc.classHandles := by
    rw [← hval, ← h.classId f hf]
    exact h.present f hf
  have hfilter : tc.filterDel false handleID =
      some { tc with filters := tc.filters.filter (·.handle ≠ handleID) } :=
    if_neg (not_or.mpr ⟨Bool.false_ne_true, not_not.mpr hmem⟩)
  have hdel : classDel { tc with filters := tc.filters.filter (·.handle ≠ handleID) } false
      (handleForIP ip) = some { tc with
        filters := tc.filters.filter (·.handle ≠ handleID)
        classes := tc.classes.filter (·.handle ≠ handleForIP ip) } :=
    if_neg (not_or.mpr ⟨Bool.false_ne_true, not_not.mpr hclass⟩)
  unfold dropLimit noFailure
  rw [hlookup]
  dsimp only
  rw [hfilter]
  dsimp only
  rw [hdel]
  rfl

/-- Among the filters, the handle, the address and the class of the removed one are its own. -/
theorem Consistent.mem_withoutLimit {tc : TcWrapper} (h : tc.Consistent) {ip : UInt32}
    {handleID : Nat} (hlookup : tc.ipToFilterHandler.lookup ip = some handleID) {f : U32Filter} :
    f ∈ (tc.withoutLimit ip handleID).filters ↔ f ∈ tc.filters ∧ f.val ≠ ip := by
  obtain ⟨f₀, hf₀, hval, hhandle⟩ := (h.recorded ip handleID).mp hlookup
  simp only [withoutLimit, List.mem_filter, decide_eq_true_eq]
  apply and_congr_right
  intro hf
  rw [← hval, ← hhandle]
  constructor
  · intro hne heq
    exact hne (List.inj_on_of_nodup_map h.vals hf hf₀ heq ▸ rfl)
  · intro hne heq
    exact hne (List.inj_on_of_nodup_map h.handles hf hf₀ heq ▸ rfl)

theorem Consistent.classId_ne {tc : TcWrapper} (h : tc.Consistent) {ip : UInt32} {handleID : Nat}
    (hlookup : tc.ipToFilterHandler.lookup ip = some handleID) {f : U32Filter}
    (hf : f ∈ tc.filters) (hne : f.val ≠ ip) : f.classId ≠ handleForIP ip := by
  obtain ⟨f₀, hf₀, rfl, -⟩ := (h.recorded ip handleID).mp hlookup
  rw [← h.classId f₀ hf₀]
  intro heq
  exact hne (h.own f hf f₀ hf₀ heq ▸ rfl)

theorem withoutLimit_consistent {tc : TcWrapper} (h : tc.Consistent) {ip : UInt32} {handleID : Nat}
    (hlookup : tc.ipToFilterHandler.lookup ip = some handleID) :
    (tc.withoutLimit ip handleID).Consistent := by
  have hsub : (tc.withoutLimit ip handleID).filters.Sublist tc.filters := List.filter_sublist
  have hmem {f : U32Filter} := h.mem_withoutLimit hlookup (f := f)
  refine ⟨fun ip' handle ↦ ?_, h.handles.sublist (hsub.map _), h.vals.sublist (hsub.map _),
    h.classes.sublist (List.filter_sublist.map _), fun f hf ↦ h.classId f (hmem.mp hf).1,
    fun f hf ↦ ?_, fun f hf g hg ↦ h.own f (hmem.mp hf).1 g (hmem.mp hg).1⟩
  · simp only [hmem]
    by_cases hip : ip' = ip
    · subst hip
      have hold : ¬ ∃ f, (f ∈ tc.filters ∧ f.val ≠ ip') ∧ f.val = ip' ∧ f.handle = handle :=
        fun ⟨f, ⟨_, hne⟩, heq, _⟩ ↦ hne heq
      simp [withoutLimit, hold]
    · rw [withoutLimit, AList.lookup_erase_ne hip, h.recorded]
      constructor
      · rintro ⟨f, hf, rfl, hhandle⟩
        exact ⟨f, ⟨hf, hip⟩, rfl, hhandle⟩
      · rintro ⟨f, ⟨hf, -⟩, hval, hhandle⟩
        exact ⟨f, hf, hval, hhandle⟩
  · obtain ⟨hf, hne⟩ := hmem.mp hf
    obtain ⟨c, hc, hhandle⟩ := List.mem_map.mp (h.present f hf)
    refine List.mem_map.mpr ⟨c, List.mem_filter.mpr ⟨hc, ?_⟩, hhandle⟩
    simpa [hhandle] using h.classId_ne hlookup hf hne

theorem limitOf_withoutLimit {tc : TcWrapper} (h : tc.Consistent) {ip : UInt32} {handleID : Nat}
    (hlookup : tc.ipToFilterHandler.lookup ip = some handleID) (ip' : UInt32) :
    (tc.withoutLimit ip handleID).limitOf ip' = if ip' = ip then none else tc.limitOf ip' := by
  have hnew := withoutLimit_consistent h hlookup
  by_cases hip : ip' = ip
  · rw [if_pos hip, hnew.limitOf_eq_none]
    intro f hf
    exact hip ▸ ((h.mem_withoutLimit hlookup).mp hf).2
  · rw [if_neg hip]
    apply Option.ext
    intro rate
    rw [hnew.limitOf_eq_some, h.limitOf_eq_some]
    constructor
    · rintro ⟨f, hf, hval, hc⟩
      exact ⟨f, ((h.mem_withoutLimit hlookup).mp hf).1, hval, (List.mem_filter.mp hc).1⟩
    · rintro ⟨f, hf, rfl, hc⟩
      refine ⟨f, (h.mem_withoutLimit hlookup).mpr ⟨hf, hip⟩, rfl, List.mem_filter.mpr ⟨hc, ?_⟩⟩
      simpa using h.classId_ne hlookup hf hip

/-! ## What the two calls do when netlink works -/

theorem addLimit_spec {tc : TcWrapper} (h : tc.Consistent) {ip : UInt32}
    (hnone : tc.limitOf ip = none) (hclass : handleForIP ip ∉ tc.classHandles) (rate : Rate) :
    ∃ tc', tc.addLimit noFailure ip rate = (.ok (), tc') ∧ tc'.Consistent ∧
      ∀ ip', tc'.limitOf ip' = if ip' = ip then some rate else tc.limitOf ip' :=
  ⟨_, addLimit_eq h hnone hclass rate, withLimit_consistent h hnone hclass rate,
    limitOf_withLimit h hnone hclass rate⟩

theorem dropLimit_spec {tc : TcWrapper} (h : tc.Consistent) (ip : UInt32) :
    ∃ r tc', tc.dropLimit noFailure ip = (r, tc') ∧ tc'.Consistent ∧
      ∀ ip', tc'.limitOf ip' = if ip' = ip then none else tc.limitOf ip' := by
  cases hlookup : tc.ipToFilterHandler.lookup ip with
  | none =>
      refine ⟨.error .notSet, tc, by rw [dropLimit, hlookup], h, fun ip' ↦ ?_⟩
      split
      · rename_i hip
        rw [hip]
        exact h.lookup_eq_none.mp hlookup
      · rfl
  | some handleID =>
      exact ⟨_, _, dropLimit_eq h hlookup, withoutLimit_consistent h hlookup,
        limitOf_withoutLimit h hlookup⟩

end TcWrapper

end CommonLib.IPAM
