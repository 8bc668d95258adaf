import Mathlib

/-!
# Readers and writers

The contracts of `io.Reader` and `io.Writer`.  What a call returns may depend on everything that was
done before, so that the calls are numbered.
-/

namespace CommonLib.Reasoning

variable {ε : Type}

/-- The bytes and the error that the call with that number returns for a buffer of that length.  Bytes
may come with an error, and no bytes without one. -/
structure Reader (ε : Type) where
  read : Nat → Nat → List UInt8 × Option ε
  fits : ∀ call len, (read call len).1.length ≤ len

/-- How many of the bytes the call takes.  An error may come with any number, and must come where it
takes less than all. -/
structure Writer (ε : Type) where
  write : Nat → List UInt8 → Nat × Option ε
  fits : ∀ call bytes, (write call bytes).1 ≤ bytes.length
  short : ∀ call bytes, (write call bytes).1 < bytes.length → (write call bytes).2 ≠ none

theorem Writer.length_of_ok {dst : Writer ε} {call : Nat} {bytes : List UInt8}
    (h : (dst.write call bytes).2 = none) : (dst.write call bytes).1 = bytes.length := by
  by_contra hne
  exact dst.short call bytes (Nat.lt_of_le_of_ne (dst.fits call bytes) hne) h

/-- What the calls with the given buffers deliver, from the call with that number on. -/
def Reader.delivered (src : Reader ε) : Nat → List Nat → List UInt8
  | _, [] => []
  | call, len :: lens => (src.read call len).1 ++ src.delivered (call + 1) lens

end CommonLib.Reasoning
