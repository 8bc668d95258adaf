import Mathlib

/-! Numbers as bytes, the low byte first. -/

namespace CommonLib.Reasoning

/-- The `w` low bytes of `n`. -/
def leBytes : Nat → Nat → List UInt8
  | 0, _ => []
  | w + 1, n => UInt8.ofNat n :: leBytes w (n / 256)

def leNat : List UInt8 → Nat
  | [] => 0
  | b :: bs => b.toNat + 256 * leNat bs

@[simp] theorem length_leBytes (w n : Nat) : (leBytes w n).length = w := by
  induction w generalizing n with
  | zero => rfl
  | succ w ih => rw [leBytes, List.length_cons, ih]

theorem leNat_leBytes {w n : Nat} (h : n < 256 ^ w) : leNat (leBytes w n) = n := by
  induction w generalizing n with
  | zero =>
      rw [pow_zero, Nat.lt_one_iff] at h
      exact h.symm
  | succ w ih =>
      have hrest : n / 256 < 256 ^ w := by
        apply Nat.div_lt_of_lt_mul
        rwa [pow_succ, Nat.mul_comm] at h
      rw [leBytes, leNat, ih hrest, UInt8.toNat_ofNat']
      exact Nat.mod_add_div n 256

theorem ofNat_leNat_uint64 (v : UInt64) : UInt64.ofNat (leNat (leBytes 8 v.toNat)) = v := by
  rw [leNat_leBytes v.toNat_lt, UInt64.ofNat_toNat]

end CommonLib.Reasoning
