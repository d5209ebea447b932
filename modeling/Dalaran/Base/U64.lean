import Mathlib.Algebra.Order.Ring.Nat
import Mathlib.Tactic.Common

/-
  Unsigned 64-bit counters, read as natural numbers.

  Addition wraps and subtraction either wraps or saturates, as in the modelled
  program. Each lemma says when the operation is the exact one, so that a proof
  about a counter is a proof about `toNat` with these side conditions left to
  `omega`.
-/

namespace U64

def saturatingSub (a b : UInt64) : UInt64 := if a < b then 0 else a - b

theorem toNat_saturatingSub (a b : UInt64) : (saturatingSub a b).toNat = a.toNat - b.toNat := by
  simp only [saturatingSub, UInt64.lt_iff_toNat_lt]
  split
  · rw [UInt64.toNat_zero]
    omega
  · apply UInt64.toNat_sub_of_le
    rw [UInt64.le_iff_toNat_le]
    omega

theorem toNat_add_of_lt {a b : UInt64} (h : a.toNat + b.toNat < 2 ^ 64) : (a + b).toNat = a.toNat + b.toNat := by
  rw [UInt64.toNat_add, Nat.mod_eq_of_lt h]

theorem toNat_sub_of_le {a b : UInt64} (h : b.toNat ≤ a.toNat) : (a - b).toNat = a.toNat - b.toNat :=
  UInt64.toNat_sub_of_le a b (UInt64.le_iff_toNat_le.mpr h)

end U64
