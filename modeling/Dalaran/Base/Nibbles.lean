import Dalaran.Base.LittleEndian

/-
  Nibbles in 32-bit words, and numbers in groups of three bits.

  A word holds eight nibbles, the most significant first, and is stored as four
  little-endian bytes. `digits k w` are the first `k` nibbles of the word `w` and
  `stream` the nibbles of a text of bytes. `groups` writes a number as nibbles, the
  low three bits first, with the fourth bit set where more follow.
-/

namespace Nibbles

open List

/-! ## Words -/

/-- The number that nibbles stand for, the most significant first. -/
def value : List Nat → Nat
  | [] => 0
  | n :: ns => n * 16 ^ ns.length + value ns

theorem value_append (ns ms : List Nat) : value (ns ++ ms) = value ns * 16 ^ ms.length + value ms := by
  induction ns with
  | nil => simp [value]
  | cons n ns ih =>
    rw [cons_append, value, value, ih, length_append, Nat.pow_add, Nat.add_mul, Nat.mul_assoc, Nat.add_assoc]

theorem value_concat (ns : List Nat) (n : Nat) : value (ns ++ [n]) = value ns * 16 + n := by
  rw [value_append]
  simp [value]

theorem value_lt {ns : List Nat} (h : ∀ n ∈ ns, n < 16) : value ns < 16 ^ ns.length := by
  induction ns with
  | nil => simp [value]
  | cons n ns ih =>
    have hn : n < 16 := h n (by simp)
    have hns : value ns < 16 ^ ns.length := ih fun m hm => h m (by simp [hm])
    calc value (n :: ns) < n * 16 ^ ns.length + 16 ^ ns.length := Nat.add_lt_add_left hns _
      _ = (n + 1) * 16 ^ ns.length := by rw [Nat.add_mul, Nat.one_mul]
      _ ≤ 16 * 16 ^ ns.length := Nat.mul_le_mul_right _ hn
      _ = 16 ^ (n :: ns).length := by rw [length_cons, Nat.pow_succ, Nat.mul_comm]

theorem value_zeros (k : Nat) : value (List.replicate k 0) = 0 := by
  induction k with
  | zero => rfl
  | succ k ih => rw [replicate_succ, value, ih, Nat.zero_mul]

def digits : Nat → Nat → List Nat
  | 0, _ => []
  | k + 1, w => w / 2 ^ 28 :: digits k (w * 16 % 2 ^ 32)

theorem digits_value {ns : List Nat} (h : ∀ n ∈ ns, n < 16) {k : Nat} (hk : ns.length + k = 8) :
    digits ns.length (value ns * 16 ^ k) = ns := by
  induction ns generalizing k with
  | nil => rfl
  | cons n ns ih =>
    have hns : ∀ m ∈ ns, m < 16 := fun m hm => h m (mem_cons_of_mem n hm)
    have hn : n < 16 := h n (by simp)
    rw [length_cons] at hk
    have hpow : 16 ^ ns.length * 16 ^ k = 2 ^ 28 := by
      rw [← Nat.pow_add, show ns.length + k = 7 by omega]
      rfl
    have hlow : value ns * 16 ^ k < 2 ^ 28 := by
      rw [← hpow]
      exact Nat.mul_lt_mul_of_pos_right (value_lt hns) (Nat.pow_pos (by decide))
    have hword : value (n :: ns) * 16 ^ k = n * 2 ^ 28 + value ns * 16 ^ k := by
      rw [value, Nat.add_mul, Nat.mul_assoc, hpow]
    have hshift : value ns * 16 ^ (k + 1) = value ns * 16 ^ k * 16 := by
      rw [Nat.pow_succ, Nat.mul_assoc]
    have hrest : (n * 2 ^ 28 + value ns * 16 ^ k) * 16 % 2 ^ 32 = value ns * 16 ^ (k + 1) := by
      omega
    rw [length_cons, digits, hword, hrest, ih hns (by omega)]
    congr 1
    omega

/-! ## Bytes -/

def stream : List UInt8 → List Nat
  | a :: b :: c :: d :: bytes => digits 8 (LittleEndian.leValue [a, b, c, d]) ++ stream bytes
  | _ => []

theorem leBytes_four (w : Nat) : ∃ a b c d, LittleEndian.leBytes 4 w = [a, b, c, d] := ⟨_, _, _, _, rfl⟩

theorem stream_append {bytes : List UInt8} {words : Nat} (hwords : bytes.length = 4 * words) {w : Nat}
    (hw : w < 2 ^ 32) : stream (bytes ++ LittleEndian.leBytes 4 w) = stream bytes ++ digits 8 w := by
  induction words generalizing bytes with
  | zero =>
    obtain rfl : bytes = [] := length_eq_zero_iff.mp hwords
    obtain ⟨a, b, c, d, hbytes⟩ := leBytes_four w
    have hvalue : LittleEndian.leValue [a, b, c, d] = w := by
      rw [← hbytes]
      exact LittleEndian.leValue_leBytes hw
    simp [hbytes, stream, hvalue]
  | succ words ih =>
    match bytes, hwords with
    | a :: b :: c :: d :: bytes, hwords =>
      simp only [length_cons] at hwords
      rw [cons_append, cons_append, cons_append, cons_append, stream, stream, ih (by omega), append_assoc]

/-! ## Groups of three bits -/

/-- The nibbles of a number of variable length. -/
def groups (v : Nat) : List Nat :=
  if v < 8 then [v] else (v % 8 + 8) :: groups (v / 8)
termination_by v
decreasing_by omega

theorem groups_of_lt {v : Nat} (h : v < 8) : groups v = [v] := by rw [groups, if_pos h]

theorem groups_of_le {v : Nat} (h : 8 ≤ v) : groups v = (v % 8 + 8) :: groups (v / 8) := by
  rw [groups, if_neg (by omega)]

end Nibbles
