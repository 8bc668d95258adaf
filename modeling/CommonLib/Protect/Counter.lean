import CommonLib.Reasoning.GoMap
import CommonLib.Reasoning.Run

/-!
# The protect counter

`ProtectCounter` counts how often an address is held, and asks the protector under it only for the
first hold and the last release.  The protector is known by the calls it has got.
-/

namespace CommonLib.Protect

open CommonLib.Reasoning

inductive Verb
  | protect | unprotect
deriving DecidableEq, Repr

/-- How a call of the protector ended; one that failed may have changed some addresses. -/
inductive Outcome (A : Type)
  | ok
  | failed (took : List A)

structure ProtectorCall (A : Type) where
  verb : Verb
  addrs : List A
  outcome : Outcome A

inductive ProtectError
  | protector
deriving DecidableEq, Repr

def Outcome.reply {A : Type} : Outcome A → Except ProtectError Unit
  | .ok => .ok ()
  | .failed _ => .error .protector

variable {A : Type} [DecidableEq A]

/-- The addresses the call has changed. -/
def ProtectorCall.took (c : ProtectorCall A) : List A :=
  match c.outcome with
  | .ok => c.addrs
  | .failed took => c.addrs.filter (· ∈ took)

/-- The last call that changed the address, of a list with the newest call first, was `protect`. -/
def IsProtected : List (ProtectorCall A) → A → Prop
  | [], _ => False
  | c :: calls, a => if a ∈ c.took then c.verb = .protect else IsProtected calls a

instance decidableIsProtected (calls : List (ProtectorCall A)) (a : A) :
    Decidable (IsProtected calls a) :=
  match calls with
  | [] => .isFalse id
  | c :: calls =>
      have := decidableIsProtected calls a
      inferInstanceAs (Decidable (if a ∈ c.took then c.verb = .protect else IsProtected calls a))

structure ProtectCounter (A : Type) where
  -- The calls the protector has got, the newest first.
  protector : List (ProtectorCall A)
  -- The map `protected`.
  counts : GoMap A Int

/-- `pc.protected[addr] += 1`. -/
def retain (counts : GoMap A Int) (addr : A) : GoMap A Int :=
  counts.insert addr ((counts.lookup addr).getD 0 + 1)

/-- `pc.protected[addr] -= 1`, and the key goes if that leaves zero. -/
def release (counts : GoMap A Int) (addr : A) : GoMap A Int :=
  let count := (counts.lookup addr).getD 0 - 1
  if count = 0 then counts.erase addr else counts.insert addr count

namespace ProtectCounter

def withProtectCounter : ProtectCounter A := ⟨[], ∅⟩

/-- `pc.protected[addr]`, zero for an address that is not there. -/
def count (pc : ProtectCounter A) (addr : A) : Int := (pc.counts.lookup addr).getD 0

def protectAddresses (pc : ProtectCounter A) (addrs : List A) (outcome : Outcome A) :
    Except ProtectError Unit × ProtectCounter A :=
  let unprotected := addrs.filter fun addr ↦ (pc.counts.lookup addr).isNone
  let protector := ⟨.protect, unprotected, outcome⟩ :: pc.protector
  match outcome.reply with
  | .error err => (.error err, { pc with protector := protector })
  | .ok () => (.ok (), ⟨protector, addrs.foldl retain pc.counts⟩)

def unprotectAddresses (pc : ProtectCounter A) (addrs : List A) (outcome : Outcome A) :
    Except ProtectError Unit × ProtectCounter A :=
  let unprotect := addrs.filter fun addr ↦ pc.count addr = 1
  let protector := ⟨.unprotect, unprotect, outcome⟩ :: pc.protector
  -- The counts go down whether the protector has failed or not.
  (outcome.reply, ⟨protector, addrs.foldl release pc.counts⟩)

/-- `UnprotectAll`, which only logs a failure; the map's order decides nothing. -/
def unprotectAll (pc : ProtectCounter A) (outcome : Outcome A) : ProtectCounter A :=
  ⟨⟨.unprotect, pc.counts.keys, outcome⟩ :: pc.protector, ∅⟩

end ProtectCounter

/-! ## The protector after one more call -/

theorem isProtected_cons_of_notMem {c : ProtectorCall A} {calls : List (ProtectorCall A)} {a : A}
    (h : a ∉ c.addrs) : IsProtected (c :: calls) a ↔ IsProtected calls a := by
  have htook : a ∉ c.took := by
    unfold ProtectorCall.took
    split
    · exact h
    · exact fun hmem ↦ h (List.mem_filter.mp hmem).1
  rw [IsProtected, if_neg htook]

theorem isProtected_cons_ok (verb : Verb) (addrs : List A) (calls : List (ProtectorCall A)) (a : A) :
    IsProtected (⟨verb, addrs, .ok⟩ :: calls) a ↔
      if a ∈ addrs then verb = .protect else IsProtected calls a :=
  Iff.rfl

/-- A call that fails without effect. -/
theorem isProtected_cons_failed (verb : Verb) (addrs : List A) (calls : List (ProtectorCall A))
    (a : A) : IsProtected (⟨verb, addrs, .failed []⟩ :: calls) a ↔ IsProtected calls a := by
  rw [IsProtected, if_neg]
  simp [ProtectorCall.took]

/-- Whatever comes of it, a call of `protect` takes no protection away. -/
theorem IsProtected.protect {calls : List (ProtectorCall A)} {a : A} (h : IsProtected calls a)
    (addrs : List A) (outcome : Outcome A) :
    IsProtected (⟨.protect, addrs, outcome⟩ :: calls) a := by
  unfold IsProtected
  split
  · rfl
  · exact h

/-! ## Counts after a call -/

/-- The entry of an address that is held `n` times. -/
def stored (n : Int) : Option Int := if n = 0 then none else some n

theorem stored_getD {o : Option Int} (h : o ≠ some 0) : stored (o.getD 0) = o := by
  cases o with
  | none => rfl
  | some n =>
      have hn : n ≠ 0 := fun heq ↦ h (by rw [heq])
      exact if_neg hn

theorem getD_stored (n : Int) : (stored n).getD 0 = n := by
  unfold stored
  split
  next hn => exact hn.symm
  next => rfl

theorem lookup_retain (m : GoMap A Int) (a b : A) :
    (retain m b).lookup a = if a = b then some ((m.lookup a).getD 0 + 1) else m.lookup a := by
  unfold retain
  split
  next heq =>
    subst heq
    rw [AList.lookup_insert]
  next hne => rw [AList.lookup_insert_ne hne]

theorem lookup_release (m : GoMap A Int) (a b : A) :
    (release m b).lookup a = if a = b then stored ((m.lookup a).getD 0 - 1) else m.lookup a := by
  by_cases hab : a = b
  · subst hab
    rw [if_pos rfl, stored]
    by_cases hzero : (m.lookup a).getD 0 - 1 = 0
    · rw [if_pos hzero]
      simp only [release, if_pos hzero, AList.lookup_erase]
    · rw [if_neg hzero]
      simp only [release, if_neg hzero, AList.lookup_insert]
  · rw [if_neg hab]
    by_cases hzero : (m.lookup b).getD 0 - 1 = 0
    · simp only [release, if_pos hzero, AList.lookup_erase_ne hab]
    · simp only [release, if_neg hzero, AList.lookup_insert_ne hab]

/-- A list raises the count of an address by the times it names it. -/
theorem lookup_foldl_retain (addrs : List A) (m : GoMap A Int) (a : A) :
    (addrs.foldl retain m).lookup a =
      if a ∈ addrs then some ((m.lookup a).getD 0 + addrs.count a) else m.lookup a := by
  induction addrs generalizing m with
  | nil => simp
  | cons b addrs ih =>
      rw [List.foldl_cons, ih, lookup_retain]
      by_cases hab : a = b
      · subst hab
        simp only [if_true, Option.getD_some, List.mem_cons, true_or, List.count_cons_self]
        split
        · congr 1
          push_cast
          omega
        next hnotin => rw [List.count_eq_zero_of_not_mem hnotin]; simp
      · have hcount : (b :: addrs).count a = addrs.count a := List.count_cons_of_ne (Ne.symm hab)
        simp [hab, hcount]

/-- A list lowers the count of an address by the times it names it, also below zero. -/
theorem lookup_foldl_release (addrs : List A) {m : GoMap A Int} {a : A}
    (h : m.lookup a ≠ some 0) :
    (addrs.foldl release m).lookup a = stored ((m.lookup a).getD 0 - addrs.count a) := by
  induction addrs generalizing m with
  | nil => simp [stored_getD h]
  | cons b addrs ih =>
      have hrelease := lookup_release m a b
      rw [List.foldl_cons]
      by_cases hab : a = b
      · subst hab
        rw [if_pos rfl] at hrelease
        have hne : (release m a).lookup a ≠ some 0 := by
          rw [hrelease, stored]
          split
          · simp
          next hn => simpa using hn
        rw [ih hne, hrelease, getD_stored, List.count_cons_self]
        congr 1
        push_cast
        omega
      · rw [if_neg hab] at hrelease
        rw [ih (hrelease ▸ h), hrelease, List.count_cons_of_ne (Ne.symm hab)]

end CommonLib.Protect
