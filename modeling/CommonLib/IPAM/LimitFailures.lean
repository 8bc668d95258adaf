import CommonLib.IPAM.TrafficControl
import CommonLib.Reasoning.Run

/-!
# Limits when netlink calls fail

Setting and removing a limit are each several netlink calls with nothing undone on the way out: a
call that fails after another one has succeeded leaves the kernel with half a limit.
-/

namespace CommonLib.IPAM.TcWrapper

open CommonLib.Reasoning CommonLib.XNet

/-- The classes that `init` makes, which belong to no address. -/
def reservedHandles : List UInt32 := [makeHandle 1 defaultClassID, makeHandle 1 1]

def HasClass (tc : TcWrapper) (ip : UInt32) : Prop :=
  handleForIP ip ∈ tc.classHandles ∧ handleForIP ip ∉ reservedHandles

def HasFilter (tc : TcWrapper) (ip : UInt32) : Prop :=
  ∃ f ∈ tc.filters, f.val = ip ∧ f.classId = handleForIP ip

/-- The wrapper and the kernel agree on the address: it has a limit in full or not at all, and a
limit that is not there can be set. -/
structure Mirrors (tc : TcWrapper) (ip : UInt32) : Prop where
  recorded : (tc.ipToFilterHandler.lookup ip).isSome ↔ tc.HasClass ip ∧ tc.HasFilter ip
  nothing : tc.ipToFilterHandler.lookup ip = none → ¬ tc.HasClass ip ∧ ¬ tc.HasFilter ip
  retry : tc.ipToFilterHandler.lookup ip = none → handleForIP ip ∉ reservedHandles →
    ∀ addr rate, addr.toUint32 = .ok ip → ∃ tc', tc.setLimit noFailure addr rate = .ok (.ok (), tc')

inductive LimitCall
  | set (addr : IP) (rate : Rate) (fails : NetlinkCall → Bool)
  | remove (addr : IP) (fails : NetlinkCall → Bool)

def LimitCall.addr : LimitCall → IP
  | .set addr _ _ => addr
  | .remove addr _ => addr

/-- A call that panics, on an address that is not IPv4, gives no state. -/
def step (tc : TcWrapper) : LimitCall → Option TcWrapper
  | .set addr rate fails => (tc.setLimit fails addr rate).toOption.map Prod.snd
  | .remove addr fails => (tc.removeLimit fails addr).toOption.map Prod.snd

/-- Once the class has been added, the filter is added and listed; once the filter has been deleted,
the class is deleted. -/
def Completes (tc : TcWrapper) : LimitCall → Prop
  | .set addr rate fails => ∀ ip, addr.toUint32 = .ok ip → rate ≠ 0 →
      tc.ipToFilterHandler.lookup ip = none → handleForIP ip ∉ reservedHandles →
      fails .classAdd = false → fails .filterAdd = false ∧ fails .filterList = false
  | .remove addr fails => ∀ ip, addr.toUint32 = .ok ip →
      (tc.ipToFilterHandler.lookup ip).isSome → fails .filterDel = false → fails .classDel = false

/-- Every class but the reserved ones belongs to the filter of one address of `A`. -/
structure Inv (A : Set UInt32) (tc : TcWrapper) : Prop where
  consistent : tc.Consistent
  mem : ∀ f ∈ tc.filters, f.val ∈ A
  free : ∀ f ∈ tc.filters, f.classId ∉ reservedHandles
  reserved : ∀ h ∈ reservedHandles, h ∈ tc.classHandles
  owned : ∀ h ∈ tc.classHandles, h ∈ reservedHandles ∨ ∃ f ∈ tc.filters, f.classId = h

variable {A : Set UInt32} {tc tc' : TcWrapper} {ip : UInt32} {rate : Rate}
  {fails : NetlinkCall → Bool}

theorem new_inv (A : Set UInt32) (parentRate : Rate) : Inv A (new parentRate) where
  consistent := new_consistent parentRate
  mem _ hf := nomatch hf
  free _ hf := nomatch hf
  reserved _ hh := hh
  owned _ hh := .inl hh

theorem Inv.limitOf_eq_none (h : Inv A tc) (hnone : tc.ipToFilterHandler.lookup ip = none) :
    tc.limitOf ip = none :=
  h.consistent.lookup_eq_none.mp hnone

theorem Inv.filter_of_lookup (h : Inv A tc) (hsome : (tc.ipToFilterHandler.lookup ip).isSome) :
    ∃ f ∈ tc.filters, f.val = ip := by
  obtain ⟨handle, hlookup⟩ := Option.isSome_iff_exists.mp hsome
  obtain ⟨f, hf, hval, -⟩ := (h.consistent.recorded ip handle).mp hlookup
  exact ⟨f, hf, hval⟩

/-- An address without a limit has no class either: its class would be another address's. -/
theorem Inv.handle_notMem (h : Inv A tc) (hA : Set.InjOn handleForIP A) (hip : ip ∈ A)
    (hnone : tc.ipToFilterHandler.lookup ip = none) (hfree : handleForIP ip ∉ reservedHandles) :
    handleForIP ip ∉ tc.classHandles := by
  intro hmem
  obtain ⟨f, hf, hclass⟩ := (h.owned _ hmem).resolve_left hfree
  rw [h.consistent.classId f hf] at hclass
  have hval := hA (h.mem f hf) hip hclass
  exact h.consistent.limitOf_eq_none.mp (h.limitOf_eq_none hnone) f hf hval

theorem Inv.mirrors (h : Inv A tc) (hA : Set.InjOn handleForIP A) (hip : ip ∈ A) :
    Mirrors tc ip := by
  have hnothing : tc.ipToFilterHandler.lookup ip = none →
      ¬ tc.HasClass ip ∧ ¬ tc.HasFilter ip := by
    intro hnone
    constructor
    · rintro ⟨hmem, hfree⟩
      exact h.handle_notMem hA hip hnone hfree hmem
    · rintro ⟨f, hf, hval, -⟩
      exact h.consistent.limitOf_eq_none.mp (h.limitOf_eq_none hnone) f hf hval
  refine ⟨⟨fun hsome ↦ ?_, fun hboth ↦ ?_⟩, hnothing, fun hnone hfree addr rate haddr ↦ ?_⟩
  · obtain ⟨f, hf, rfl⟩ := h.filter_of_lookup hsome
    have hclass := h.consistent.classId f hf
    have hpresent := h.consistent.present f hf
    have hfree := h.free f hf
    rw [hclass] at hpresent hfree
    exact ⟨⟨hpresent, hfree⟩, f, hf, rfl, hclass⟩
  · rw [← Option.ne_none_iff_isSome]
    exact fun hnone ↦ (hnothing hnone).1 hboth.1
  · unfold setLimit
    split
    · exact ⟨tc, rfl⟩
    · have hclass := h.handle_notMem hA hip hnone hfree
      rw [haddr, Except.map, addLimit_eq h.consistent (h.limitOf_eq_none hnone) hclass]
      exact ⟨_, rfl⟩

/-! ## What a call leaves -/

theorem Inv.withLimit (h : Inv A tc) (hA : Set.InjOn handleForIP A) (hip : ip ∈ A)
    (hnone : tc.ipToFilterHandler.lookup ip = none) (hfree : handleForIP ip ∉ reservedHandles)
    (rate : Rate) : Inv A (tc.withLimit ip rate) := by
  have hclass := h.handle_notMem hA hip hnone hfree
  refine ⟨withLimit_consistent h.consistent (h.limitOf_eq_none hnone) hclass rate, ?_, ?_, ?_, ?_⟩
  · intro f hf
    rcases mem_withLimit_filters.mp hf with hf | rfl
    · exact h.mem f hf
    · exact hip
  · intro f hf
    rcases mem_withLimit_filters.mp hf with hf | rfl
    · exact h.free f hf
    · exact hfree
  · intro handle hhandle
    have hold := h.reserved handle hhandle
    simp only [classHandles, TcWrapper.withLimit, List.map_append, List.mem_append]
    exact .inl hold
  · intro handle hhandle
    simp only [classHandles, TcWrapper.withLimit, List.map_append, List.mem_append, List.map_cons,
      List.map_nil, List.mem_singleton] at hhandle
    rcases hhandle with hold | rfl
    · rcases h.owned handle hold with hreserved | ⟨f, hf, hclass⟩
      · exact .inl hreserved
      · exact .inr ⟨f, mem_withLimit_filters.mpr (.inl hf), hclass⟩
    · exact .inr ⟨_, mem_withLimit_filters.mpr (.inr rfl), rfl⟩

theorem Inv.withoutLimit (h : Inv A tc) {handleID : Nat}
    (hlookup : tc.ipToFilterHandler.lookup ip = some handleID) :
    Inv A (tc.withoutLimit ip handleID) := by
  have hmem {f : U32Filter} := h.consistent.mem_withoutLimit hlookup (f := f)
  obtain ⟨f₀, hf₀, hval₀, -⟩ := (h.consistent.recorded ip handleID).mp hlookup
  have hown : handleForIP ip = f₀.classId := by
    rw [h.consistent.classId f₀ hf₀, hval₀]
  refine ⟨withoutLimit_consistent h.consistent hlookup, fun f hf ↦ h.mem f (hmem.mp hf).1,
    fun f hf ↦ h.free f (hmem.mp hf).1, fun handle hhandle ↦ ?_, fun handle hhandle ↦ ?_⟩
  · obtain ⟨c, hc, rfl⟩ := List.mem_map.mp (h.reserved handle hhandle)
    refine List.mem_map.mpr ⟨c, List.mem_filter.mpr ⟨hc, ?_⟩, rfl⟩
    rw [hown, decide_eq_true_eq]
    rintro heq
    exact h.free f₀ hf₀ (heq ▸ hhandle)
  · obtain ⟨c, hc, rfl⟩ := List.mem_map.mp hhandle
    obtain ⟨hc, hne⟩ := List.mem_filter.mp hc
    rw [hown, decide_eq_true_eq] at hne
    rcases h.owned c.handle (List.mem_map_of_mem hc) with hreserved | ⟨f, hf, hclass⟩
    · exact .inl hreserved
    · refine .inr ⟨f, hmem.mpr ⟨hf, fun hval ↦ hne ?_⟩, hclass⟩
      rw [← hclass, h.consistent.classId f hf, hval, hown]

/-- The ways out of `setLimit`, in the order of its checks. -/
inductive Added (tc : TcWrapper) (fails : NetlinkCall → Bool) (ip : UInt32) (rate : Rate) :
    TcWrapper → Prop
  | alreadySet (hset : (tc.ipToFilterHandler.lookup ip).isSome) : Added tc fails ip rate tc
  | noClass (hnone : tc.ipToFilterHandler.lookup ip = none)
      (hclass : fails .classAdd = true ∨ handleForIP ip ∈ tc.classHandles) :
      Added tc fails ip rate tc
  | noFilter (hnone : tc.ipToFilterHandler.lookup ip = none) (hclass : fails .classAdd = false)
      (hnew : handleForIP ip ∉ tc.classHandles) (hfilter : fails .filterAdd = true) :
      Added tc fails ip rate { tc with classes := tc.classes ++ [⟨handleForIP ip, rate⟩] }
  | notListed (hnone : tc.ipToFilterHandler.lookup ip = none) (hclass : fails .classAdd = false)
      (hnew : handleForIP ip ∉ tc.classHandles) (hlist : fails .filterList = true) :
      Added tc fails ip rate { tc with
        classes := tc.classes ++ [⟨handleForIP ip, rate⟩]
        filters := tc.filters ++ [⟨tc.freshHandle, ip, handleForIP ip⟩] }
  | done (hnone : tc.ipToFilterHandler.lookup ip = none) (hclass : fails .classAdd = false)
      (hnew : handleForIP ip ∉ tc.classHandles) (hfilter : fails .filterAdd = false)
      (hlist : fails .filterList = false) : Added tc fails ip rate (tc.withLimit ip rate)

theorem addLimit_added (h : tc.Consistent) :
    Added tc fails ip rate (tc.addLimit fails ip rate).2 := by
  cases hlookup : tc.ipToFilterHandler.lookup ip with
  | some handle =>
      have hset : (tc.ipToFilterHandler.lookup ip).isSome := by rw [hlookup]; rfl
      rw [addLimit, if_pos hset]
      exact .alreadySet hset
  | none =>
      have hunset : ¬ (tc.ipToFilterHandler.lookup ip).isSome := by simp [hlookup]
      by_cases hclass : fails .classAdd = true ∨ handleForIP ip ∈ tc.classHandles
      · rw [addLimit, if_neg hunset, classAdd, if_pos hclass]
        exact .noClass hlookup hclass
      · obtain ⟨hadd, hnew⟩ := not_or.mp hclass
        rw [Bool.not_eq_true] at hadd
        cases hfilter : fails .filterAdd with
        | true =>
            rw [addLimit, if_neg hunset, classAdd, if_neg hclass]
            simp only [filterAdd, hfilter, if_true]
            exact .noFilter hlookup hadd hnew hfilter
        | false =>
            cases hlist : fails .filterList with
            | true =>
                rw [addLimit, if_neg hunset, classAdd, if_neg hclass]
                simp only [filterAdd, hfilter, hlist, if_true, Bool.false_eq_true, if_false]
                exact .notListed hlookup hadd hnew hlist
            | false =>
                have hsame : tc.addLimit fails ip rate = tc.addLimit noFailure ip rate := by
                  simp only [addLimit, hadd, hfilter, hlist, noFailure, Bool.false_eq_true,
                    if_false]
                rw [hsame, addLimit_eq h (h.lookup_eq_none.mp hlookup) hnew]
                exact .done hlookup hadd hnew hfilter hlist

inductive Dropped (tc : TcWrapper) (fails : NetlinkCall → Bool) (ip : UInt32) : TcWrapper → Prop
  | notSet (hnone : tc.ipToFilterHandler.lookup ip = none) : Dropped tc fails ip tc
  | keptFilter (hfilter : fails .filterDel = true) : Dropped tc fails ip tc
  | keptClass (handleID : Nat) (hlookup : tc.ipToFilterHandler.lookup ip = some handleID)
      (hfilter : fails .filterDel = false) (hclass : fails .classDel = true) :
      Dropped tc fails ip { tc with filters := tc.filters.filter (·.handle ≠ handleID) }
  | done (handleID : Nat) (hlookup : tc.ipToFilterHandler.lookup ip = some handleID)
      (hfilter : fails .filterDel = false) (hclass : fails .classDel = false) :
      Dropped tc fails ip (tc.withoutLimit ip handleID)

theorem dropLimit_dropped (h : tc.Consistent) : Dropped tc fails ip (tc.dropLimit fails ip).2 := by
  cases hlookup : tc.ipToFilterHandler.lookup ip with
  | none =>
      rw [dropLimit, hlookup]
      exact .notSet hlookup
  | some handleID =>
      cases hfilter : fails .filterDel with
      | true =>
          rw [dropLimit, hlookup]
          simp only [filterDel, hfilter, true_or, if_true]
          exact .keptFilter hfilter
      | false =>
          cases hclass : fails .classDel with
          | true =>
              obtain ⟨f, hf, -, hhandle⟩ := (h.recorded ip handleID).mp hlookup
              have hmem : handleID ∈ tc.filters.map (·.handle) := List.mem_map.mpr ⟨f, hf, hhandle⟩
              rw [dropLimit, hlookup]
              simp only [filterDel, hfilter, hmem, not_true_eq_false, or_self, Bool.false_eq_true,
                if_false, classDel, hclass, true_or, if_true]
              exact .keptClass handleID hlookup hfilter hclass
          | false =>
              have hsame : tc.dropLimit fails ip = tc.dropLimit noFailure ip := by
                simp only [dropLimit, hfilter, hclass, noFailure]
              rw [hsame, dropLimit_eq h hlookup]
              exact .done handleID hlookup hfilter hclass

/-! ## A call with half of its work done -/

theorem not_mirrors_noFilter (hnone : tc.ipToFilterHandler.lookup ip = none)
    (hfree : handleForIP ip ∉ reservedHandles) :
    ¬ Mirrors { tc with classes := tc.classes ++ [⟨handleForIP ip, rate⟩] } ip := by
  intro h
  apply (h.nothing hnone).1
  exact ⟨by simp [classHandles], hfree⟩

theorem not_mirrors_notListed (hnone : tc.ipToFilterHandler.lookup ip = none)
    (hfree : handleForIP ip ∉ reservedHandles) :
    ¬ Mirrors { tc with
      classes := tc.classes ++ [⟨handleForIP ip, rate⟩]
      filters := tc.filters ++ [⟨tc.freshHandle, ip, handleForIP ip⟩] } ip := by
  intro h
  apply (h.nothing hnone).1
  exact ⟨by simp [classHandles], hfree⟩

theorem Inv.not_mirrors_keptClass (h : Inv A tc) {handleID : Nat}
    (hlookup : tc.ipToFilterHandler.lookup ip = some handleID) :
    ¬ Mirrors { tc with filters := tc.filters.filter (·.handle ≠ handleID) } ip := by
  intro hmirrors
  have hset : (tc.ipToFilterHandler.lookup ip).isSome := by rw [hlookup]; rfl
  obtain ⟨f, hf, hval, -⟩ := (hmirrors.recorded.mp hset).2
  -- the filter that was recorded was the only one of the address
  exact ((h.consistent.mem_withoutLimit hlookup).mp hf).2 hval

/-! ## Runs -/

theorem step_set_cases (h : tc.Consistent) {addr : IP}
    (hstep : step tc (.set addr rate fails) = some tc') :
    rate = 0 ∧ tc' = tc ∨
      rate ≠ 0 ∧ ∃ ip, addr.toUint32 = .ok ip ∧ Added tc fails ip rate tc' := by
  simp only [step, setLimit] at hstep
  split at hstep
  next hrate =>
    cases hstep
    exact .inl ⟨hrate, rfl⟩
  next hrate =>
    cases haddr : addr.toUint32 with
    | error c =>
        rw [haddr] at hstep
        cases hstep
    | ok ip =>
        rw [haddr] at hstep
        cases hstep
        exact .inr ⟨hrate, ip, rfl, addLimit_added h⟩

theorem step_remove_cases (h : tc.Consistent) {addr : IP}
    (hstep : step tc (.remove addr fails) = some tc') :
    ∃ ip, addr.toUint32 = .ok ip ∧ Dropped tc fails ip tc' := by
  simp only [step, removeLimit] at hstep
  cases haddr : addr.toUint32 with
  | error c =>
      rw [haddr] at hstep
      cases hstep
  | ok ip =>
      rw [haddr] at hstep
      cases hstep
      exact ⟨ip, rfl, dropLimit_dropped h⟩

/-- The call is on an address of `A`. -/
def LimitCall.On (A : Set UInt32) (c : LimitCall) : Prop :=
  ∀ ip, c.addr.toUint32 = .ok ip → ip ∈ A

theorem Inv.step (h : Inv A tc) (hA : Set.InjOn handleForIP A) {c : LimitCall} (hc : c.On A)
    (hcompletes : Completes tc c) (hstep : TcWrapper.step tc c = some tc') : Inv A tc' := by
  cases c with
  | set addr rate fails =>
      rcases step_set_cases h.consistent hstep with ⟨-, rfl⟩ | ⟨hrate, ip, haddr, hadded⟩
      · exact h
      · have hip := hc ip haddr
        -- a class that could be added is not reserved
        have hfree : handleForIP ip ∉ tc.classHandles → handleForIP ip ∉ reservedHandles :=
          fun hnew hreserved ↦ hnew (h.reserved _ hreserved)
        cases hadded with
        | alreadySet _ => exact h
        | noClass _ _ => exact h
        | noFilter hnone hclass hnew hfilter =>
            have hok := hcompletes ip haddr hrate hnone (hfree hnew) hclass
            rw [hok.1] at hfilter
            cases hfilter
        | notListed hnone hclass hnew hlist =>
            have hok := hcompletes ip haddr hrate hnone (hfree hnew) hclass
            rw [hok.2] at hlist
            cases hlist
        | done hnone _ hnew _ _ => exact h.withLimit hA hip hnone (hfree hnew) rate
  | remove addr fails =>
      obtain ⟨ip, haddr, hdropped⟩ := step_remove_cases h.consistent hstep
      cases hdropped with
      | notSet _ => exact h
      | keptFilter _ => exact h
      | keptClass handleID hlookup hfilter hclass =>
          have hok := hcompletes ip haddr (by rw [hlookup]; rfl) hfilter
          rw [hok] at hclass
          cases hclass
      | done handleID hlookup _ _ => exact h.withoutLimit hlookup

theorem Inv.completes_of_mirrors (h : Inv A tc) (hA : Set.InjOn handleForIP A) {c : LimitCall}
    (hc : c.On A) (hstep : TcWrapper.step tc c = some tc') (hmirrors : ∀ ip ∈ A, Mirrors tc' ip) :
    Completes tc c := by
  cases c with
  | set addr rate fails =>
      intro ip haddr hrate hnone hfree hclass
      rcases step_set_cases h.consistent hstep with ⟨hzero, -⟩ | ⟨-, ip', haddr', hadded⟩
      · exact absurd hzero hrate
      · cases haddr.symm.trans haddr'
        have hip := hc ip haddr
        have hafter := hmirrors ip hip
        have hnew := h.handle_notMem hA hip hnone hfree
        cases hadded with
        | alreadySet hset =>
            rw [hnone] at hset
            cases hset
        | noClass _ hfailed =>
            rcases hfailed with hfailed | hmem
            · rw [hclass] at hfailed
              cases hfailed
            · exact absurd hmem hnew
        | noFilter _ _ _ _ => exact absurd hafter (not_mirrors_noFilter hnone hfree)
        | notListed _ _ _ _ => exact absurd hafter (not_mirrors_notListed hnone hfree)
        | done _ _ _ hfilter hlist => exact ⟨hfilter, hlist⟩
  | remove addr fails =>
      intro ip haddr hset hfilter
      obtain ⟨ip', haddr', hdropped⟩ := step_remove_cases h.consistent hstep
      cases haddr.symm.trans haddr'
      have hafter := hmirrors ip (hc ip haddr)
      cases hdropped with
      | notSet hnone =>
          rw [hnone] at hset
          cases hset
      | keptFilter hfailed =>
          rw [hfilter] at hfailed
          cases hfailed
      | keptClass handleID hlookup _ _ =>
          exact absurd hafter (h.not_mirrors_keptClass hlookup)
      | done _ _ _ hclass => exact hclass

/-- Wrapper and kernel agree after every call of a run exactly if no call is left half done. -/
theorem mirrors_iff_completes (parentRate : Rate) (A : Set UInt32) (hA : Set.InjOn handleForIP A)
    (calls : List LimitCall) (hcalls : ∀ c ∈ calls, c.On A) :
    EveryState step (fun tc ↦ ∀ ip ∈ A, Mirrors tc ip) calls (new parentRate) ↔
      EveryStep step Completes calls (new parentRate) := by
  have hprop : ∀ tc, Inv A tc → ∀ ip ∈ A, Mirrors tc ip := fun _ h _ hip ↦ h.mirrors hA hip
  exact everyState_iff_everyStep hprop
    (fun _ _ _ h hc hcompletes hstep ↦ h.step hA hc hcompletes hstep)
    (fun _ _ _ h hc hstep hmirrors ↦ h.completes_of_mirrors hA hc hstep hmirrors)
    hcalls (new_inv A parentRate)

/-- Only `FilterAdd` fails. -/
def noFilterAdd : NetlinkCall → Bool := (· == .filterAdd)

/-- Only `ClassAdd` fails. -/
def noClassAdd : NetlinkCall → Bool := (· == .classAdd)

/-- 10.0.0.2: a limit that fails at its class is set at the second attempt and removed. -/
theorem mirrors_retried :
    EveryState step (fun tc ↦ ∀ ip ∈ ({0x0A000002} : Set UInt32), Mirrors tc ip)
      [.set ⟨[10, 0, 0, 2]⟩ 8000 noClassAdd, .set ⟨[10, 0, 0, 2]⟩ 8000 noFailure,
        .remove ⟨[10, 0, 0, 2]⟩ noFailure] (new 1000000) := by
  have hon : ∀ ip, IP.toUint32 ⟨[10, 0, 0, 2]⟩ = .ok ip → ip ∈ ({0x0A000002} : Set UInt32) := by
    intro ip hip
    cases hip
    decide
  refine (mirrors_iff_completes 1000000 {0x0A000002} (Set.injOn_singleton ..) _ ?_).mpr ?_
  · simp only [List.forall_mem_cons]
    exact ⟨hon, hon, hon, fun _ h ↦ nomatch h⟩
  · refine .cons rfl ?_ (.cons rfl ?_ (.cons rfl ?_ trivial))
    · intro ip _ _ _ _ hclass
      cases hclass
    · exact fun _ _ _ _ _ _ ↦ ⟨rfl, rfl⟩
    · exact fun _ _ _ _ ↦ rfl

/-- A limit whose filter could not be added leaves its class behind, and cannot be set again. -/
theorem failed_filter_keeps_class :
    ∃ tc, step (new 1000000) (.set ⟨[10, 0, 0, 2]⟩ 8000 noFilterAdd) = some tc ∧
      tc.ipToFilterHandler.lookup 0x0A000002 = none ∧ tc.HasClass 0x0A000002 ∧
      ¬ Mirrors tc 0x0A000002 ∧
      ∃ tc', tc.setLimit noFailure ⟨[10, 0, 0, 2]⟩ 8000 = .ok (.error .addClass, tc') := by
  refine ⟨_, rfl, rfl, ⟨by decide, by decide⟩, fun h ↦ ?_, _, rfl⟩
  exact (h.nothing rfl).1 ⟨by decide, by decide⟩

end CommonLib.IPAM.TcWrapper
