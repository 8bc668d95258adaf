import Mathlib

/-! The ways in which a Go call ends without returning. -/

namespace CommonLib.Reasoning

inductive Crash
  | indexOutOfRange
  | divideByZero
  | panic (message : String)
  | fatal (message : String)
  -- A fuelled loop that was cut off; models exclude it by a bound on their loops.
  | outOfFuel
deriving DecidableEq, Repr

theorem toOption_eq_some_iff {ε α : Type*} {x : Except ε α} {a : α} :
    x.toOption = some a ↔ x = .ok a := by
  cases x <;> simp [Except.toOption]

end CommonLib.Reasoning
