import CommonLib.ConnMgr.Manager

/-!
# Live registrations

A registration that is live is stored in the map it went into, whatever `CloseAll` does to the
pointer.  While nobody calls `CloseAll` there is only one map, and so `Lookup` finds it there.
-/

namespace CommonLib.ConnMgr

open CommonLib.Reasoning

def InRange (id : Int64) : Prop := connMinimalID ≤ id ∧ id ≤ connMaximalID

namespace System

variable {C : Type}

structure CounterInv (i : IdType) : Prop where
  min : i.min = connMinimalID
  max : i.max = connMaximalID
  current : InRange i.current

theorem CounterInv.shift {i : IdType} (h : CounterInv i) : CounterInv i.shift.2 := by
  have hmin := h.min
  have hmax := h.max
  obtain ⟨hlow, hhigh⟩ := h.current
  refine ⟨hmin, hmax, ?_⟩
  change InRange (if i.current + 1 > i.max then i.min else i.current + 1)
  split
  · -- the counter starts over
    rw [hmin]
    exact ⟨Int64.le_refl _, by decide⟩
  next hnext =>
    -- the range ends far below the largest `int`
    have hle : i.current.toInt ≤ 2147483647 := Int64.le_iff_toInt_le.mp hhigh
    have hsucc := toInt_succ (x := i.current) (by omega)
    rw [hmax] at hnext
    refine ⟨Int64.le_iff_toInt_le.mpr ?_, Int64.not_lt.mp hnext⟩
    have hge := Int64.le_iff_toInt_le.mp hlow
    omega

structure Inv (s : System C) : Prop where
  counter : CounterInv s.mgr.id
  drawn : ∀ map conn id, .drawn map conn id ∈ s.calls → InRange id
  current : s.mgr.pmap < s.mgr.fresh
  called : ∀ call ∈ s.calls, call.map < s.mgr.fresh
  nodup : s.live.Nodup
  stored : ∀ r ∈ s.live, (s.mgr.maps r.map).lookup r.id = some r.conn
  inRange : ∀ r ∈ s.live, InRange r.id
  allocated : ∀ r ∈ s.live, r.map < s.mgr.fresh

/-- A step that adds no registration and changes no map. -/
theorem Inv.mono {s : System C} (h : Inv s) {calls : Multiset (Call C)}
    {live : Multiset (Registration C)}
    (hcalls : ∀ c ∈ calls, c ∈ s.calls ∨
      c.map < s.mgr.fresh ∧ ∀ map conn id, c = .drawn map conn id → InRange id)
    (hlive : live ≤ s.live) : Inv { s with calls := calls, live := live } where
  counter := h.counter
  drawn map conn id hc := by
    obtain hold | hnew := hcalls _ hc
    · exact h.drawn map conn id hold
    · exact hnew.2 map conn id rfl
  current := h.current
  called c hc := by
    obtain hold | hnew := hcalls c hc
    · exact h.called c hold
    · exact hnew.1
  nodup := Multiset.nodup_of_le hlive h.nodup
  stored r hr := h.stored r (Multiset.mem_of_le hlive hr)
  inRange r hr := h.inRange r (Multiset.mem_of_le hlive hr)
  allocated r hr := h.allocated r (Multiset.mem_of_le hlive hr)

theorem inv_closeAll {s : System C} (h : Inv s) :
    Inv { s with mgr := s.mgr.swap, calls := .closing s.mgr.pmap ::ₘ s.calls } where
  counter := h.counter
  drawn map conn id hc := by
    rcases Multiset.mem_cons.mp hc with heq | hc
    · cases heq
    · exact h.drawn map conn id hc
  current := Nat.lt_succ_self _
  called c hc := by
    rcases Multiset.mem_cons.mp hc with rfl | hc
    · exact Nat.lt_succ_of_lt h.current
    · exact Nat.lt_succ_of_lt (h.called c hc)
  nodup := h.nodup
  stored r hr := by
    change (Function.update s.mgr.maps s.mgr.fresh ∅ r.map).lookup r.id = some r.conn
    rw [Function.update_of_ne (h.allocated r hr).ne]
    exact h.stored r hr
  inRange := h.inRange
  allocated r hr := Nat.lt_succ_of_lt (h.allocated r hr)

theorem inv_init : Inv (init : System C) where
  counter := by
    refine ⟨rfl, rfl, ?_⟩
    change InRange connMinimalID
    exact ⟨Int64.le_refl _, by decide⟩
  drawn _ _ _ hc := by cases hc
  current := Nat.one_pos
  called _ hc := by cases hc
  nodup := Multiset.nodup_zero
  stored _ hr := by cases hr
  inRange _ hr := by cases hr
  allocated _ hr := by cases hr

variable [DecidableEq C]

theorem mem_advance {s : System C} {call next c : Call C} (h : c ∈ s.advance call next) :
    c = next ∨ c ∈ s.calls :=
  (Multiset.mem_cons.mp h).imp_right Multiset.mem_of_mem_erase

/-- A call that goes on keeps to its map. -/
theorem Inv.advance {s : System C} (h : Inv s) {call next : Call C} (hcall : call ∈ s.calls)
    (hmap : next.map = call.map) (hnext : ∀ map conn id, next = .drawn map conn id → InRange id)
    {live : Multiset (Registration C)} (hlive : live ≤ s.live) :
    Inv { s with calls := s.advance call next, live := live } := by
  refine h.mono (fun c hc ↦ ?_) hlive
  rcases mem_advance hc with rfl | hc
  · exact .inr ⟨hmap ▸ h.called call hcall, hnext⟩
  · exact .inl hc

/-- The registration stored under an id is the only live one there. -/
theorem Inv.ne_of_mem_erase {s : System C} (h : Inv s) {map : MapRef} {id : Int64} {conn : C}
    (hfound : (s.mgr.maps map).lookup id = some conn) {r : Registration C}
    (hr : r ∈ s.live.erase ⟨map, id, conn⟩) : ¬ (r.map = map ∧ r.id = id) := by
  rintro ⟨rfl, rfl⟩
  obtain ⟨hne, hmem⟩ := h.nodup.mem_erase_iff.mp hr
  have hconn : r.conn = conn := Option.some.inj ((h.stored r hmem).symm.trans hfound)
  exact hne (by rw [← hconn])

theorem inv_store {s : System C} (h : Inv s) {map : MapRef} {conn : C} {id : Int64}
    (hcall : .drawn map conn id ∈ s.calls) (hfree : (s.mgr.maps map).lookup id = none) :
    Inv ⟨s.mgr.setMap map ((s.mgr.maps map).insert id conn),
      s.calls.erase (.drawn map conn id), ⟨map, id, conn⟩ ::ₘ s.live⟩ where
  counter := h.counter
  drawn map' conn' id' hc := h.drawn map' conn' id' (Multiset.mem_of_mem_erase hc)
  current := h.current
  called c hc := h.called c (Multiset.mem_of_mem_erase hc)
  nodup := by
    refine Multiset.nodup_cons.mpr ⟨fun hmem ↦ ?_, h.nodup⟩
    have hstored := h.stored _ hmem
    rw [hfree] at hstored
    cases hstored
  stored r hr := by
    change (Function.update s.mgr.maps map _ r.map).lookup r.id = some r.conn
    rcases Multiset.mem_cons.mp hr with rfl | hr
    · rw [Function.update_self, AList.lookup_insert]
    · have hstored := h.stored r hr
      by_cases hmap : r.map = map
      · -- the id was free, so that the live registrations of this map have other ids
        have hid : r.id ≠ id := by
          rintro rfl
          rw [hmap, hfree] at hstored
          cases hstored
        rw [hmap, Function.update_self, AList.lookup_insert_ne hid, ← hmap]
        exact hstored
      · rw [Function.update_of_ne hmap]
        exact hstored
  inRange r hr := by
    rcases Multiset.mem_cons.mp hr with rfl | hr
    · exact h.drawn map conn id hcall
    · exact h.inRange r hr
  allocated r hr := by
    rcases Multiset.mem_cons.mp hr with rfl | hr
    · exact h.called _ hcall
    · exact h.allocated r hr

theorem inv_delete {s : System C} (h : Inv s) {map : MapRef} {id : Int64} {conn : C}
    (hfound : (s.mgr.maps map).lookup id = some conn) :
    Inv ⟨s.mgr.setMap map ((s.mgr.maps map).erase id), s.calls.erase (.unregistering map id),
      s.live.erase ⟨map, id, conn⟩⟩ := by
  have hless : Inv { s with
      calls := s.calls.erase (.unregistering map id)
      live := s.live.erase ⟨map, id, conn⟩ } :=
    h.mono (fun c hc ↦ .inl (Multiset.mem_of_mem_erase hc)) (Multiset.erase_le _ _)
  refine { hless with stored := fun r hr ↦ ?_ }
  have hstored := hless.stored r hr
  change (Function.update s.mgr.maps map _ r.map).lookup r.id = some r.conn
  by_cases hmap : r.map = map
  · have hid : r.id ≠ id := fun hid ↦ h.ne_of_mem_erase hfound hr ⟨hmap, hid⟩
    rw [hmap, Function.update_self, AList.lookup_erase_ne hid, ← hmap]
    exact hstored
  · rw [Function.update_of_ne hmap]
    exact hstored

theorem inv_taken {s t : System C} {e : Event C} (h : Inv s) (htaken : Taken s e t) : Inv t := by
  cases htaken with
  | register conn =>
      refine h.mono (fun c hc ↦ ?_) le_rfl
      rcases Multiset.mem_cons.mp hc with rfl | hc
      · exact .inr ⟨h.current, fun _ _ _ heq ↦ by cases heq⟩
      · exact .inl hc
  | unregister id =>
      refine h.mono (fun c hc ↦ ?_) le_rfl
      rcases Multiset.mem_cons.mp hc with rfl | hc
      · exact .inr ⟨h.current, fun _ _ _ heq ↦ by cases heq⟩
      · exact .inl hc
  | @draw map conn hcall =>
      have hnext : Inv { s with
          calls := s.advance (.registering map conn) (.drawn map conn s.mgr.id.shift.1) } := by
        refine h.advance hcall (by rfl) (fun _ _ _ heq ↦ ?_) le_rfl
        cases heq
        exact h.counter.current
      exact { hnext with counter := h.counter.shift }
  | busy hcall => exact h.advance hcall (by rfl) (fun _ _ _ heq ↦ by cases heq) le_rfl
  | store hcall hfree => exact inv_store h hcall hfree
  | gone hcall => exact h.mono (fun c hc ↦ .inl (Multiset.mem_of_mem_erase hc)) le_rfl
  | delete hcall hfound => exact inv_delete h hfound
  | closeAll => exact inv_closeAll h
  | range hcall => exact h.advance hcall (by rfl) (fun _ _ _ heq ↦ by cases heq) le_rfl
  | pass hcall hgone => exact h.advance hcall (by rfl) (fun _ _ _ heq ↦ by cases heq) le_rfl
  | visit hcall hfound =>
      exact h.advance hcall (by rfl) (fun _ _ _ heq ↦ by cases heq) (Multiset.erase_le _ _)
  | rangeEnd hcall => exact h.mono (fun c hc ↦ .inl (Multiset.mem_of_mem_erase hc)) le_rfl

/-! ## Without `CloseAll` -/

/-- All calls and all live registrations are at the map the pointer shows. -/
structure OneMap (s : System C) : Prop where
  inv : Inv s
  calls : ∀ call ∈ s.calls, call.map = s.mgr.pmap
  live : ∀ r ∈ s.live, r.map = s.mgr.pmap

theorem OneMap.advance {s : System C} (h : OneMap s) {call next : Call C} (hcall : call ∈ s.calls)
    (hmap : next.map = call.map) : ∀ c ∈ s.advance call next, c.map = s.mgr.pmap := by
  intro c hc
  rcases mem_advance hc with rfl | hc
  · rw [hmap, h.calls call hcall]
  · exact h.calls c hc

theorem oneMap_step (s : System C) (e : Event C) (t : System C) (h : OneMap s)
    (he : e ≠ .closeAll) (hstep : s.step e = some t) : OneMap t := by
  have htaken := step_taken hstep
  have hinv := inv_taken h.inv htaken
  have herase (call : Call C) : ∀ c ∈ s.calls.erase call, c.map = s.mgr.pmap :=
    fun c hc ↦ h.calls c (Multiset.mem_of_mem_erase hc)
  cases htaken with
  | register conn =>
      refine ⟨hinv, fun c hc ↦ ?_, h.live⟩
      rcases Multiset.mem_cons.mp hc with rfl | hc
      · rfl
      · exact h.calls c hc
  | unregister id =>
      refine ⟨hinv, fun c hc ↦ ?_, h.live⟩
      rcases Multiset.mem_cons.mp hc with rfl | hc
      · rfl
      · exact h.calls c hc
  | draw hcall => exact ⟨hinv, h.advance hcall (by rfl), h.live⟩
  | busy hcall => exact ⟨hinv, h.advance hcall (by rfl), h.live⟩
  | store hcall hfree =>
      refine ⟨hinv, herase _, fun r hr ↦ ?_⟩
      rcases Multiset.mem_cons.mp hr with rfl | hr
      · exact h.calls _ hcall
      · exact h.live r hr
  | gone hcall => exact ⟨hinv, herase _, h.live⟩
  | delete hcall hfound =>
      exact ⟨hinv, herase _, fun r hr ↦ h.live r (Multiset.mem_of_mem_erase hr)⟩
  | closeAll => exact absurd rfl he
  | range hcall => exact ⟨hinv, h.advance hcall (by rfl), h.live⟩
  | pass hcall hgone => exact ⟨hinv, h.advance hcall (by rfl), h.live⟩
  | visit hcall hfound =>
      exact ⟨hinv, h.advance hcall (by rfl), fun r hr ↦ h.live r (Multiset.mem_of_mem_erase hr)⟩
  | rangeEnd hcall => exact ⟨hinv, herase _, h.live⟩

/-- In every state of every run without `CloseAll`: live registrations have different ids, all in
range, and `Lookup` of the id gives the connection that was registered. -/
theorem live_found (es : List (Event C)) (hes : ∀ e ∈ es, e ≠ .closeAll) :
    EveryState step (fun s ↦ (s.live.map Registration.id).Nodup ∧
      ∀ r ∈ s.live, (connMinimalID ≤ r.id ∧ r.id ≤ connMaximalID) ∧ s.mgr.lookup r.id = .ok r.conn)
      es init := by
  have hinit : OneMap (init : System C) := ⟨inv_init, by simp [init], by simp [init]⟩
  have hrun : EveryStep step (fun (_ : System C) e ↦ e ≠ .closeAll) es init :=
    everyStep_of_mem hes init
  refine (hrun.everyState oneMap_step hinit).imp fun s hs ↦ ⟨?_, fun r hr ↦ ⟨?_, ?_⟩⟩
  · -- the id of a live registration determines it
    refine hs.inv.nodup.map_on fun r hr r' hr' hid ↦ ?_
    have hconn := hs.inv.stored r hr
    rw [hid, hs.live r hr, ← hs.live r' hr', hs.inv.stored r' hr', Option.some.injEq] at hconn
    have hmap : r.map = r'.map := (hs.live r hr).trans (hs.live r' hr').symm
    cases r
    cases r'
    simp_all
  · exact hs.inv.inRange r hr
  · have hstored := hs.inv.stored r hr
    rw [hs.live r hr] at hstored
    rw [Instance.lookup, hstored]

/-- Two calls of `Register` that draw their ids before either has stored. -/
theorem live_found_interleaved :
    ∃ s : System Nat,
      runSteps step [.register 7, .register 8, .draw 0 7, .draw 0 8, .store 0 8 1025,
        .store 0 7 1024] init = some s ∧
      s.live = {⟨0, 1024, 7⟩, ⟨0, 1025, 8⟩} ∧ s.mgr.lookup 1024 = .ok 7 ∧
      EveryState step (fun s : System Nat ↦ (s.live.map Registration.id).Nodup ∧
        ∀ r ∈ s.live, (connMinimalID ≤ r.id ∧ r.id ≤ connMaximalID) ∧
          s.mgr.lookup r.id = .ok r.conn)
        [.register 7, .register 8, .draw 0 7, .draw 0 8, .store 0 8 1025, .store 0 7 1024] init :=
  ⟨_, rfl, rfl, rfl, live_found _ (by simp)⟩

end System

end CommonLib.ConnMgr
