import Mathlib.Algebra.GroupWithZero.Nat
import Mathlib.Tactic.Common

/-
  Numbers as little-endian bytes.

  `leBytes k n` is the `k` lowest bytes of `n`, the lowest first, and `leValue`
  the number some bytes stand for. On numbers that fit the two are inverse
  (`leValue_leBytes`); the fixed-width readers and writers of a program are these
  two with a width filled in.
-/

namespace LittleEndian

/-- The number some bytes stand for. -/
def leValue : List UInt8 → Nat
  | [] => 0
  | b :: bs => b.toNat + 256 * leValue bs

def leBytes : Nat → Nat → List UInt8
  | 0, _ => []
  | k + 1, n => UInt8.ofNat n :: leBytes k (n / 256)

@[simp] theorem leBytes_length (k n : Nat) : (leBytes k n).length = k := by
  induction k generalizing n with
  | zero => rfl
  | succ k ih => rw [leBytes, List.length_cons, ih]

theorem leValue_leBytes {k n : Nat} (h : n < 256 ^ k) : leValue (leBytes k n) = n := by
  induction k generalizing n with
  | zero =>
    rw [leBytes, leValue]
    omega
  | succ k ih =>
    have hdiv : n / 256 < 256 ^ k := by
      omega
    rw [leBytes, leValue, ih hdiv, UInt8.toNat_ofNat']
    omega

theorem leValue_lt (bs : List UInt8) : leValue bs < 256 ^ bs.length := by
  induction bs with
  | nil => exact Nat.one_pos
  | cons b bs ih =>
    have hb := b.toNat_lt
    rw [leValue, List.length_cons, Nat.pow_succ]
    omega

def u64ToLe (n : UInt64) : List UInt8 := leBytes 8 n.toNat

def u64FromLe (bs : List UInt8) : UInt64 := UInt64.ofNat (leValue bs)

def u32ToLe (n : UInt32) : List UInt8 := leBytes 4 n.toNat

def u32FromLe (bs : List UInt8) : UInt32 := UInt32.ofNat (leValue bs)

@[simp] theorem u64ToLe_length (n : UInt64) : (u64ToLe n).length = 8 := leBytes_length 8 _

@[simp] theorem u32ToLe_length (n : UInt32) : (u32ToLe n).length = 4 := leBytes_length 4 _

@[simp] theorem u64FromLe_toLe (n : UInt64) : u64FromLe (u64ToLe n) = n := by
  unfold u64FromLe u64ToLe
  rw [leValue_leBytes (by have := n.toNat_lt; omega)]
  exact UInt64.ofNat_toNat

@[simp] theorem u32FromLe_toLe (n : UInt32) : u32FromLe (u32ToLe n) = n := by
  unfold u32FromLe u32ToLe
  rw [leValue_leBytes (by have := n.toNat_lt; omega)]
  exact UInt32.ofNat_toNat

end LittleEndian
