import Mathlib.Order.Basic
import Mathlib.Tactic.Common

/-
  Binary search for the end of a property that holds up to some point only.
-/

namespace Seq

variable {α : Type}

/-- The search among the `size` indices from `left` on: the one in the middle tells which half is next. -/
def searchBetween (p : Nat → Bool) (left size : Nat) : Nat :=
  if size = 0 then left
  else if p (left + size / 2) then searchBetween p (left + size / 2 + 1) (size - size / 2 - 1)
  else searchBetween p left (size / 2)
termination_by size

/-- `partition_point`: the index of the first element without the property. -/
def partitionPoint (p : α → Bool) (l : List α) : Nat := searchBetween (fun i => l[i]?.any p) 0 l.length

theorem searchBetween_spec {p : Nat → Bool} (hp : ∀ i j, i ≤ j → p j = true → p i = true) (left size : Nat) :
    left ≤ searchBetween p left size ∧ searchBetween p left size ≤ left + size ∧
      ∀ i, left ≤ i → i < left + size → (i < searchBetween p left size ↔ p i = true) := by
  induction left, size using searchBetween.induct p with
  | case1 left =>
    rw [searchBetween, if_pos rfl]
    exact ⟨by omega, by omega, fun i hlo hhi => by omega⟩
  | case2 left size hsize hmid ih =>
    rw [searchBetween, if_neg hsize, if_pos hmid]
    obtain ⟨hlo, hhi, hin⟩ := ih
    refine ⟨by omega, by omega, fun i hi hi' => ?_⟩
    by_cases hle : i ≤ left + size / 2
    · exact ⟨fun _ => hp i _ hle hmid, fun _ => by omega⟩
    · exact hin i (by omega) (by omega)
  | case3 left size hsize hmid ih =>
    rw [searchBetween, if_neg hsize, if_neg hmid]
    obtain ⟨hlo, hhi, hin⟩ := ih
    refine ⟨hlo, by omega, fun i hi hi' => ?_⟩
    by_cases hlt : i < left + size / 2
    · exact hin i hi hlt
    · exact ⟨fun h => by omega, fun h => absurd (hp _ i (Nat.le_of_not_lt hlt) h) hmid⟩

theorem lt_partitionPoint_iff {p : α → Bool} {l : List α} (hl : l.Pairwise fun a b => p b = true → p a = true)
    {i : Nat} {a : α} (ha : l[i]? = some a) : i < partitionPoint p l ↔ p a = true := by
  have hp : ∀ i j : Nat, i ≤ j → l[j]?.any p = true → l[i]?.any p = true := by
    intro i j hij hj
    obtain ⟨b, hb, hpb⟩ := (Option.any_eq_true ..).mp hj
    obtain ⟨hjl, rfl⟩ := List.getElem?_eq_some_iff.mp hb
    have hil := Nat.lt_of_le_of_lt hij hjl
    refine (Option.any_eq_true ..).mpr ⟨l[i], List.getElem?_eq_getElem hil, ?_⟩
    rcases Nat.lt_or_eq_of_le hij with hlt | rfl
    · exact List.pairwise_iff_getElem.mp hl i j hil hjl hlt hpb
    · exact hpb
  have hlen : i < 0 + l.length := by
    rw [Nat.zero_add]
    exact (List.getElem?_eq_some_iff.mp ha).1
  rw [partitionPoint, (searchBetween_spec hp 0 l.length).2.2 i (Nat.zero_le _) hlen, ha]
  rfl

end Seq
