import Mathlib.Order.Basic
import Mathlib.Order.Lattice
import Mathlib.Data.List.Basic
import Mathlib.Tactic.Common

/-
  Ordered sets as strictly increasing lists.

  This is what a B-tree set is to the code that iterates it. The order is a field,
  so an unordered set cannot be built.
-/

/-- A set kept as the strictly increasing list of its elements. -/
structure OrdSet (α : Type) [LinearOrder α] where
  elems : List α
  sorted : elems.Pairwise (· < ·)

namespace OrdSet

open List

variable {α : Type} [LinearOrder α]

instance : DecidableEq (OrdSet α) := fun s t =>
  decidable_of_iff (s.elems = t.elems) ⟨fun h => by cases s; cases t; simp_all, fun h => by rw [h]⟩

instance : Membership α (OrdSet α) := ⟨fun s a => a ∈ s.elems⟩

variable {s : OrdSet α} {a : α}

theorem mem_def : a ∈ s ↔ a ∈ s.elems := Iff.rfl

instance (a : α) (s : OrdSet α) : Decidable (a ∈ s) := inferInstanceAs (Decidable (a ∈ s.elems))

def empty : OrdSet α := ⟨[], List.Pairwise.nil⟩

@[simp] theorem not_mem_empty (a : α) : a ∉ (empty : OrdSet α) := by
  simp [mem_def, empty]

def insertSorted (a : α) : List α → List α
  | [] => [a]
  | b :: l => if a < b then a :: b :: l else if a = b then b :: l else b :: insertSorted a l

variable {b : α}

theorem mem_insertSorted : ∀ {l : List α}, b ∈ insertSorted a l ↔ b = a ∨ b ∈ l
  | [] => by simp [insertSorted]
  | c :: l => by
    unfold insertSorted
    split
    · simp
    · split
      · rename_i h
        simp [h]
      · rw [mem_cons, mem_insertSorted, mem_cons]
        tauto

theorem insertSorted_pairwise : ∀ {l : List α}, l.Pairwise (· < ·) → (insertSorted a l).Pairwise (· < ·)
  | [], _ => pairwise_singleton _ _
  | b :: l, h => by
    obtain ⟨hb, hl⟩ := pairwise_cons.mp h
    unfold insertSorted
    split
    · rename_i hab
      refine pairwise_cons.mpr ⟨fun c hc => ?_, h⟩
      rcases mem_cons.mp hc with rfl | hc
      · exact hab
      · exact hab.trans (hb c hc)
    · rename_i hab
      split
      · exact h
      · rename_i hne
        refine pairwise_cons.mpr ⟨fun c hc => ?_, insertSorted_pairwise hl⟩
        rcases mem_insertSorted.mp hc with rfl | hc
        · exact lt_of_le_of_ne (not_lt.mp hab) (Ne.symm hne)
        · exact hb c hc

def insert (s : OrdSet α) (a : α) : OrdSet α :=
  ⟨insertSorted a s.elems, insertSorted_pairwise s.sorted⟩

def erase (s : OrdSet α) (a : α) : OrdSet α :=
  ⟨s.elems.filter (· ≠ a), s.sorted.filter _⟩

@[simp] theorem mem_insert : b ∈ s.insert a ↔ b = a ∨ b ∈ s :=
  mem_insertSorted

@[simp] theorem mem_erase : b ∈ s.erase a ↔ b ≠ a ∧ b ∈ s := by
  simp [erase, mem_def, and_comm]

theorem nodup (s : OrdSet α) : s.elems.Nodup := s.sorted.imp ne_of_lt

def insertAll (s : OrdSet α) (l : List α) : OrdSet α := l.foldl insert s

@[simp] theorem mem_insertAll {l : List α} : a ∈ s.insertAll l ↔ a ∈ l ∨ a ∈ s := by
  unfold insertAll
  induction l generalizing s with
  | nil => simp
  | cons b l ih =>
    rw [foldl_cons, ih, mem_insert, mem_cons]
    tauto

def ofList (l : List α) : OrdSet α := empty.insertAll l

@[simp] theorem mem_ofList {l : List α} : a ∈ ofList l ↔ a ∈ l := by
  simp [ofList]

def union (s t : OrdSet α) : OrdSet α := s.insertAll t.elems

variable {t : OrdSet α}

@[simp] theorem mem_union : a ∈ s.union t ↔ a ∈ s ∨ a ∈ t := by
  rw [union, mem_insertAll, or_comm, mem_def (s := t)]

end OrdSet
