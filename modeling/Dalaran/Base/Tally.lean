import Mathlib.Data.List.Count
import Mathlib.Data.List.Perm.Basic
import Mathlib.Data.List.Nodup

/-
  How many elements of a list are marked, where an empty list has no count.

  `tally` is what an incremental counter stands for: the list is fixed while the
  marks change one element at a time, and each change moves the count by one
  (`tally_mark`, `tally_unmark`).
-/

variable {α : Type}

/-- The number of marked elements, or `none` for the empty list. -/
def tally (marked : α → Bool) (l : List α) : Option Nat :=
  if l.isEmpty then none else some (l.countP marked)

@[simp] theorem tally_nil (marked : α → Bool) : tally marked [] = none := rfl

variable {marked : α → Bool} {l : List α}

theorem tally_of_ne_nil (h : l ≠ []) : tally marked l = some (l.countP marked) := by
  cases l with
  | nil => exact absurd rfl h
  | cons a l => rfl

variable {l' : List α}

theorem tally_perm (h : l.Perm l') : tally marked l = tally marked l' := by
  unfold tally
  rw [h.countP_eq, h.isEmpty_eq]

variable {marked' : α → Bool}

theorem tally_congr (h : ∀ a ∈ l, marked a = marked' a) : tally marked l = tally marked' l := by
  unfold tally
  rw [List.countP_congr fun a ha => by rw [h a ha]]

theorem tally_concat (marked : α → Bool) (l : List α) (a : α) :
    tally marked (l ++ [a]) = some ((tally marked l).getD 0 + if marked a then 1 else 0) := by
  rw [tally_of_ne_nil (by simp), List.countP_append, List.countP_singleton]
  cases l with
  | nil => simp
  | cons b l => rw [tally_of_ne_nil (List.cons_ne_nil b l), Option.getD_some]

theorem countP_of_marked_at [DecidableEq α] {a : α} (hnodup : l.Nodup) (ha : a ∈ l) (hmarked : marked a = true)
    (hmarked' : marked' a = false) (hother : ∀ b ∈ l, b ≠ a → marked b = marked' b) :
    l.countP marked = l.countP marked' + 1 := by
  have hperm := List.perm_cons_erase ha
  have hrest : (l.erase a).countP marked = (l.erase a).countP marked' :=
    List.countP_congr fun b hb => by
      rw [hother b (List.mem_of_mem_erase hb) fun hba => by
        subst hba
        exact (List.Nodup.not_mem_erase hnodup) hb]
  rw [hperm.countP_eq marked, hperm.countP_eq marked', List.countP_cons_of_pos hmarked,
    List.countP_cons_of_neg (by simp [hmarked']), hrest]

theorem tally_unmark [DecidableEq α] {a : α} (hnodup : l.Nodup) (ha : a ∈ l) (hmarked : marked a = true)
    (hmarked' : marked' a = false) (hother : ∀ b ∈ l, b ≠ a → marked b = marked' b) :
    tally marked' l = (tally marked l).map (· - 1) := by
  rw [tally_of_ne_nil (List.ne_nil_of_mem ha), tally_of_ne_nil (List.ne_nil_of_mem ha),
    countP_of_marked_at hnodup ha hmarked hmarked' hother]
  rfl

theorem tally_mark [DecidableEq α] {a : α} (hnodup : l.Nodup) (ha : a ∈ l) (hmarked : marked a = false)
    (hmarked' : marked' a = true) (hother : ∀ b ∈ l, b ≠ a → marked b = marked' b) :
    tally marked' l = (tally marked l).map (· + 1) := by
  rw [tally_of_ne_nil (List.ne_nil_of_mem ha), tally_of_ne_nil (List.ne_nil_of_mem ha),
    countP_of_marked_at hnodup ha hmarked' hmarked fun b hb hba => (hother b hb hba).symm]
  rfl

/-! ## What is marked -/

theorem map_perm_filter_append_iff {β : Type} {marked : α → Bool} {key : α → β}
    (hkey : ∀ a b, key a = key b → marked a = marked b) {l r : List α} :
    (l.map key).Perm (((l ++ r).filter marked).map key) ↔
      (∀ a ∈ l, marked a = true) ∧ ∀ a ∈ r, marked a = false := by
  rw [List.filter_append, List.map_append]
  constructor
  · intro hperm
    have hall : ∀ a ∈ l, marked a = true := by
      intro a ha
      have hmem := hperm.subset (List.mem_map_of_mem ha)
      rw [← List.map_append, ← List.filter_append] at hmem
      obtain ⟨b, hb, heq⟩ := List.mem_map.mp hmem
      rw [← hkey b a heq]
      exact (List.mem_filter.mp hb).2
    rw [List.filter_eq_self.mpr hall] at hperm
    have hlength := hperm.length_eq
    rw [List.length_append, List.length_map, List.length_map] at hlength
    have hnil : r.filter marked = [] := List.eq_nil_of_length_eq_zero (by omega)
    exact ⟨hall, fun a ha => by simpa using List.filter_eq_nil_iff.mp hnil a ha⟩
  · intro ⟨hall, hnone⟩
    have hnil : r.filter marked = [] := List.filter_eq_nil_iff.mpr fun a ha => by simp [hnone a ha]
    rw [List.filter_eq_self.mpr hall, hnil, List.map_nil, List.append_nil]
