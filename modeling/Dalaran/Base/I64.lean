import Mathlib.Order.Basic
import Mathlib.Order.Lattice
import Mathlib.Tactic.Common

/-
  Signed 64-bit integers with saturating arithmetic.

  A value is an integer together with the proof that it fits, so `omega` sees
  through every operation: each one is a clamp (`sat`) of the exact result. An
  operation that wraps in the modelled program has to say so itself.
-/

structure I64 where
  val : Int
  lo : -9223372036854775808 ≤ val
  hi : val ≤ 9223372036854775807
  deriving DecidableEq

namespace I64

theorem val_injective : Function.Injective I64.val := by
  rintro ⟨a, _, _⟩ ⟨b, _, _⟩ h
  simpa using h

instance : LinearOrder I64 := LinearOrder.lift' I64.val val_injective

theorem le_def {a b : I64} : a ≤ b ↔ a.val ≤ b.val := Iff.rfl

theorem lt_def {a b : I64} : a < b ↔ a.val < b.val := Iff.rfl

def MIN : I64 := ⟨-9223372036854775808, by omega, by omega⟩

def MAX : I64 := ⟨9223372036854775807, by omega, by omega⟩

def ONE : I64 := ⟨1, by omega, by omega⟩

@[simp] theorem MIN_val : MIN.val = -9223372036854775808 := rfl

@[simp] theorem ONE_val : ONE.val = 1 := rfl

theorem MIN_le (a : I64) : MIN ≤ a := a.lo

def sat (x : Int) : I64 :=
  ⟨max (-9223372036854775808) (min x 9223372036854775807), by omega, by omega⟩

@[simp] theorem sat_val (x : Int) : (sat x).val = max (-9223372036854775808) (min x 9223372036854775807) := rfl

def wrap (x : Int) : I64 :=
  ⟨(x + 9223372036854775808) % 18446744073709551616 - 9223372036854775808, by omega, by omega⟩

theorem wrap_of_fits {x : Int} (hlo : -9223372036854775808 ≤ x) (hhi : x ≤ 9223372036854775807) :
    (wrap x).val = x := by
  simp only [wrap]
  omega

def saturatingSub (a b : I64) : I64 := sat (a.val - b.val)

def saturatingAdd (a b : I64) : I64 := sat (a.val + b.val)

/-- `abs_diff`: the distance of two values, which always fits a `u64`. -/
def absDiff (a b : I64) : Nat := (a.val - b.val).natAbs

/-- The saturating cast of an unsigned length. -/
def ofLength (n : Nat) : I64 := sat n

theorem saturatingSub_val (a b : I64) :
    (a.saturatingSub b).val = max (-9223372036854775808) (min (a.val - b.val) 9223372036854775807) := rfl

theorem saturatingSub_mono {a b : I64} (h : a ≤ b) (n : I64) : a.saturatingSub n ≤ b.saturatingSub n := by
  have hle := le_def.mp h
  rw [le_def, saturatingSub_val, saturatingSub_val]
  omega

theorem ofLength_val (n : Nat) : (ofLength n).val = min (n : Int) 9223372036854775807 := by
  simp only [ofLength, sat_val]
  omega

end I64
