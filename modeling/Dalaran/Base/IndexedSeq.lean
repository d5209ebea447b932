import Mathlib.Tactic.Common

/-
  A sequence whose elements keep their indices.

  It is a map from the indices `min` up to `next` to elements. Elements are added
  after the last one and removed from either end; only `splice` moves others to
  another index.
-/

@[ext] structure IndexedSeq (α : Type) where
  min : Nat
  next : Nat
  get : Nat → Option α
  min_le : min ≤ next
  isSome_iff : ∀ i, (get i).isSome = true ↔ min ≤ i ∧ i < next

namespace IndexedSeq

open List Option

variable {α : Type}

theorem get_eq_none (s : IndexedSeq α) {i : Nat} (h : i < s.min ∨ s.next ≤ i) : s.get i = none := by
  apply not_isSome_iff_eq_none.mp
  rw [s.isSome_iff]
  omega

def push (s : IndexedSeq α) (a : α) : IndexedSeq α where
  min := s.min
  next := s.next + 1
  get i := if i = s.next then some a else s.get i
  min_le := by
    have := s.min_le
    omega
  isSome_iff i := by
    have := s.min_le
    split
    · simp
      omega
    · rw [s.isSome_iff]
      omega

def keepBelow (s : IndexedSeq α) (i : Nat) : IndexedSeq α where
  min := s.min
  next := max s.min (Nat.min i s.next)
  get j := if j < i then s.get j else none
  min_le := Nat.le_max_left ..
  isSome_iff j := by
    have := s.min_le
    have hmin : Nat.min i s.next = if i ≤ s.next then i else s.next := Nat.min_def
    split
    · rw [s.isSome_iff, hmin]
      split <;> omega
    · simp only [isSome_none, Bool.false_eq_true, false_iff, hmin]
      split <;> omega

def keepFrom (s : IndexedSeq α) (i : Nat) : IndexedSeq α where
  min := max s.min (Nat.min i s.next)
  next := s.next
  get j := if i ≤ j then s.get j else none
  min_le := by
    have := s.min_le
    have hmin : Nat.min i s.next ≤ s.next := Nat.min_le_right ..
    omega
  isSome_iff j := by
    have := s.min_le
    have hmin : Nat.min i s.next = if i ≤ s.next then i else s.next := Nat.min_def
    split
    · rw [s.isSome_iff, hmin]
      split <;> omega
    · simp only [isSome_none, Bool.false_eq_true, false_iff, hmin]
      split <;> omega

/-- The elements from `start` up to `stop` replaced by others; those after them move on. -/
def splice (s : IndexedSeq α) (start stop : Nat) (replacement : List α)
    (h : s.min ≤ start ∧ start ≤ stop ∧ stop ≤ s.next) : IndexedSeq α where
  min := s.min
  next := start + replacement.length + (s.next - stop)
  get i :=
    if i < start then s.get i
    else if i < start + replacement.length then replacement[i - start]?
    else s.get (i - (start + replacement.length) + stop)
  min_le := by omega
  isSome_iff i := by
    split
    · rw [s.isSome_iff]
      omega
    · split
      · rw [isSome_iff_ne_none, ne_eq, List.getElem?_eq_none_iff]
        omega
      · rw [s.isSome_iff]
        omega

def elements (s : IndexedSeq α) (start stop : Nat) : List (Nat × α) :=
  (List.range' start (stop - start)).filterMap fun i => (s.get i).map (Prod.mk i)

theorem elements_append (s : IndexedSeq α) {a b c : Nat} (hab : a ≤ b) (hbc : b ≤ c) :
    s.elements a c = s.elements a b ++ s.elements b c := by
  obtain ⟨m, rfl⟩ := Nat.exists_eq_add_of_le hab
  obtain ⟨n, rfl⟩ := Nat.exists_eq_add_of_le hbc
  have hlen : a + m + n - a = m + n := by omega
  rw [elements, elements, elements, hlen, Nat.add_sub_cancel_left, Nat.add_sub_cancel_left,
    ← List.range'_append_1, filterMap_append]

theorem elements_eq_nil_iff (s : IndexedSeq α) {a b : Nat} :
    s.elements a b = [] ↔ b ≤ a ∨ b ≤ s.min ∨ s.next ≤ a ∨ s.next = s.min := by
  have hle := s.min_le
  have hnone : ∀ i, s.get i = none ↔ i < s.min ∨ s.next ≤ i := by
    intro i
    rw [← not_isSome_iff_eq_none, s.isSome_iff]
    omega
  have hnil : s.elements a b = [] ↔ ∀ i, a ≤ i → i < b → i < s.min ∨ s.next ≤ i := by
    simp only [elements, filterMap_eq_nil_iff, mem_range'_1, map_eq_none_iff, hnone]
    constructor
    · exact fun h i hi hib => h i ⟨hi, by omega⟩
    · exact fun h i hi => h i hi.1 (by omega)
  rw [hnil]
  constructor
  · intro h
    -- The first index that both ranges may have.
    have := h (max a s.min)
    omega
  · intro h i hi hib
    omega

def Keeps (s s' : IndexedSeq α) : Prop := ∀ i a, s.get i = some a → s'.get i = some a ∨ s'.get i = none

theorem Keeps.refl (s : IndexedSeq α) : s.Keeps s := fun _ _ h => .inl h

theorem Keeps.trans {s t u : IndexedSeq α} (hst : s.Keeps t) (htu : t.Keeps u) (hle : t.min ≤ s.min)
    (hnext : s.next ≤ t.next) : s.Keeps u := by
  intro i a ha
  have hi := (s.isSome_iff i).mp (by rw [ha]; rfl)
  have ht := (t.isSome_iff i).mpr ⟨by omega, by omega⟩
  apply htu i a
  apply (hst i a ha).resolve_right
  exact isSome_iff_ne_none.mp ht

theorem keeps_push (s : IndexedSeq α) (a : α) : s.Keeps (s.push a) := by
  intro i b hb
  have hne : i ≠ s.next := by
    intro heq
    rw [s.get_eq_none (.inr (Nat.le_of_eq heq.symm))] at hb
    cases hb
  exact .inl ((if_neg hne).trans hb)

theorem keeps_foldl_push (s : IndexedSeq α) (as : List α) : s.Keeps (as.foldl push s) := by
  induction as generalizing s with
  | nil => exact Keeps.refl s
  | cons a as ih => exact (s.keeps_push a).trans (ih (s.push a)) (Nat.le_refl _) (Nat.le_succ _)

theorem keeps_keepBelow (s : IndexedSeq α) (i : Nat) : s.Keeps (s.keepBelow i) := by
  intro j a ha
  by_cases h : j < i
  · exact .inl ((if_pos h).trans ha)
  · exact .inr (if_neg h)

theorem keeps_keepFrom (s : IndexedSeq α) (i : Nat) : s.Keeps (s.keepFrom i) := by
  intro j a ha
  by_cases h : i ≤ j
  · exact .inl ((if_pos h).trans ha)
  · exact .inr (if_neg h)

end IndexedSeq
