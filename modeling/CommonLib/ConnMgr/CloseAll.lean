import CommonLib.ConnMgr.Registrations

/-!
# What `CloseAll` leaves behind

A `Register` that has loaded the map before `CloseAll` swaps it out stores into the old map.  If
`Range` is over by then, or passes the new key over, the connection is in a map that nobody reads.
-/

namespace CommonLib.ConnMgr

open CommonLib.Reasoning

variable {C : Type}

/-- The call is yet to close the registration's connection. -/
def Call.Drains (r : Registration C) (c : Call C) : Prop :=
  c = .closing r.map ∨ ∃ due, c = .ranging r.map due ∧ r.id ∈ due

/-- `Register` stores into a map that no `CloseAll` has begun to go through. -/
def Event.InTime (s : System C) : Event C → Prop
  | .store map _ id =>
      (s.mgr.maps map).lookup id = none → map = s.mgr.pmap ∨ .closing map ∈ s.calls
  | _ => True

namespace System

/-- `Lookup` reads the registration's map, or a `CloseAll` will come to it. -/
def Reached (s : System C) (r : Registration C) : Prop :=
  r.map = s.mgr.pmap ∨ ∃ c ∈ s.calls, c.Drains r

/-- Once all calls have returned, `Lookup` finds every connection that was neither unregistered nor
closed by `CloseAll`. -/
def Accounted (s : System C) : Prop :=
  s.calls = 0 → ∀ r ∈ s.live, s.mgr.lookup r.id = .ok r.conn

structure AllReached (s : System C) : Prop where
  inv : Inv s
  reached : ∀ r ∈ s.live, s.Reached r

theorem AllReached.accounted {s : System C} (h : AllReached s) : Accounted s := by
  intro hcalls r hr
  have hstored := h.inv.stored r hr
  obtain hcurrent | ⟨c, hc, -⟩ := h.reached r hr
  · rw [hcurrent] at hstored
    rw [Instance.lookup, hstored]
  · rw [hcalls] at hc
    cases hc

theorem Reached.cons {s : System C} {r : Registration C} (h : s.Reached r) (call : Call C) :
    Reached { s with calls := call ::ₘ s.calls } r :=
  h.imp_right fun ⟨c, hc, hdrains⟩ ↦ ⟨c, Multiset.mem_cons_of_mem hc, hdrains⟩

/-- `Range` begins with all keys the map has. -/
theorem drains_range {s : System C} (h : Inv s) {map : MapRef} {r : Registration C}
    (hr : r ∈ s.live) (hdrains : (Call.closing map : Call C).Drains r) :
    (Call.ranging map (s.mgr.maps map).keys : Call C).Drains r := by
  obtain heq | ⟨due, heq, -⟩ := hdrains
  · cases heq
    refine .inr ⟨_, rfl, ?_⟩
    rw [← AList.mem_keys, ← AList.lookup_isSome, h.stored r hr]
    rfl
  · cases heq

/-- After the visit of a key, `Range` still has the other keys to come to. -/
theorem drains_visit {map : MapRef} {due : List Int64} {id : Int64} {r : Registration C}
    (hr : ¬ (r.map = map ∧ r.id = id)) (hdrains : (Call.ranging map due : Call C).Drains r) :
    (Call.ranging map (due.erase id) : Call C).Drains r := by
  obtain heq | ⟨due', heq, hdue⟩ := hdrains
  · cases heq
  · cases heq
    have hid : r.id ≠ id := fun hid ↦ hr ⟨rfl, hid⟩
    exact .inr ⟨_, rfl, (List.mem_erase_of_ne hid).mpr hdue⟩

variable [DecidableEq C]

/-- A call that ends was not the one to come to the registration. -/
theorem Reached.erase {s : System C} {r : Registration C} (h : s.Reached r) {call : Call C}
    (hcall : ¬ call.Drains r) : Reached { s with calls := s.calls.erase call } r := by
  refine h.imp_right fun ⟨c, hc, hdrains⟩ ↦ ⟨c, ?_, hdrains⟩
  have hne : c ≠ call := by
    rintro rfl
    exact hcall hdrains
  exact (Multiset.mem_erase_of_ne hne).mpr hc

/-- A call that goes on is still to come to the registration. -/
theorem Reached.advance {s : System C} {r : Registration C} (h : s.Reached r) {call next : Call C}
    (hnext : call.Drains r → next.Drains r) :
    Reached { s with calls := s.advance call next } r := by
  by_cases hcall : call.Drains r
  · exact .inr ⟨next, Multiset.mem_cons_self _ _, hnext hcall⟩
  · exact (h.erase hcall).cons next

theorem allReached_step (s : System C) (e : Event C) (t : System C) (h : AllReached s)
    (he : e.InTime s) (hstep : s.step e = some t) : AllReached t := by
  have htaken := step_taken hstep
  refine ⟨inv_taken h.inv htaken, fun r hr ↦ ?_⟩
  have hother {call : Call C} (hclosing : ∀ map, call ≠ .closing map)
      (hranging : ∀ map due, call ≠ .ranging map due) : ¬ call.Drains r := by
    rintro (heq | ⟨due, heq, -⟩)
    · exact hclosing _ heq
    · exact hranging _ _ heq
  cases htaken with
  | register conn => exact (h.reached r hr).cons _
  | unregister id => exact (h.reached r hr).cons _
  | draw hcall => exact (h.reached r hr).advance fun hd ↦ absurd hd (hother (by simp) (by simp))
  | busy hcall => exact (h.reached r hr).advance fun hd ↦ absurd hd (hother (by simp) (by simp))
  | @store map conn id hcall hfree =>
      rcases Multiset.mem_cons.mp hr with rfl | hr
      · -- the only step that relies on the condition
        refine (he hfree).imp_right fun hclosing ↦ ⟨_, ?_, .inl rfl⟩
        exact (Multiset.mem_erase_of_ne (by simp)).mpr hclosing
      · exact (h.reached r hr).erase (hother (by simp) (by simp))
  | gone hcall => exact (h.reached r hr).erase (hother (by simp) (by simp))
  | delete hcall hfound =>
      exact (h.reached r (Multiset.mem_of_mem_erase hr)).erase (hother (by simp) (by simp))
  | closeAll =>
      -- what the pointer showed is now for `CloseAll` to close
      obtain hcurrent | ⟨c, hc, hdrains⟩ := h.reached r hr
      · exact .inr ⟨_, Multiset.mem_cons_self _ _, .inl (by rw [hcurrent])⟩
      · exact .inr ⟨c, Multiset.mem_cons_of_mem hc, hdrains⟩
  | range hcall => exact (h.reached r hr).advance (drains_range h.inv hr)
  | pass hcall hgone =>
      refine (h.reached r hr).advance (drains_visit ?_)
      rintro ⟨rfl, rfl⟩
      rw [h.inv.stored r hr] at hgone
      cases hgone
  | visit hcall hfound =>
      exact (h.reached r (Multiset.mem_of_mem_erase hr)).advance
        (drains_visit (h.inv.ne_of_mem_erase hfound hr))
  | rangeEnd hcall =>
      refine (h.reached r hr).erase ?_
      rintro (heq | ⟨due, heq, hdue⟩)
      · cases heq
      · cases heq
        cases hdue

/-- In every state of a run in which each `Register` stores in time: once all calls have returned,
every connection whose `Register` succeeded was closed by `CloseAll` or unregistered, or `Lookup`
returns it. -/
theorem accounted_of_inTime (es : List (Event C)) (h : EveryStep step Event.InTime es init) :
    EveryState step Accounted es (init : System C) := by
  have hinit : AllReached (init : System C) := ⟨inv_init, by simp [init]⟩
  exact (h.everyState allReached_step hinit).imp fun _ hs ↦ hs.accounted

/-- A `Register` that stores between the swap and `Range` is closed. -/
theorem accounted_storedInTime :
    EveryState step Accounted
      [.register 7, .draw 0 7, .closeAll, .store 0 7 1024, .range 0, .visit 0 [1024] 1024,
        .rangeEnd 0] (init : System Nat) := by
  apply accounted_of_inTime
  refine .cons rfl trivial (.cons rfl trivial (.cons rfl trivial (.cons rfl ?_ ?_)))
  · exact fun _ ↦ .inr (by decide)
  · exact .cons rfl trivial (.cons rfl trivial (.cons rfl trivial trivial))

/-- A `Register` that stores after `CloseAll` has returned: it succeeds with an id that `Lookup`
does not know, and nobody closes the connection. -/
theorem late_register_lost :
    ∃ s : System Nat,
      runSteps step [.register 7, .draw 0 7, .closeAll, .range 0, .rangeEnd 0, .store 0 7 1024]
        init = some s ∧
      s.calls = 0 ∧ s.live = {⟨0, 1024, 7⟩} ∧ s.mgr.lookup 1024 = .error .notExist ∧
      ¬ Accounted s := by
  refine ⟨_, rfl, rfl, rfl, rfl, fun h ↦ ?_⟩
  have hfound := h rfl ⟨0, 1024, 7⟩ (by decide)
  cases hfound

end System

end CommonLib.ConnMgr
