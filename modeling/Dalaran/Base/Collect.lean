import Mathlib.Data.List.Forall2
import Mathlib.Data.List.ProdSigma
import Mathlib.Tactic.Common

/-
  Collecting the results of a fallible function over a list (`try_collect`).
-/

namespace Collect

open List

variable {α β ε : Type}

variable {f : α → Except ε β}

theorem bind_eq_ok {x : Except ε α} {b : β} : x >>= f = .ok b ↔ ∃ a, x = .ok a ∧ f a = .ok b := by
  cases x with
  | error e => simp [bind, Except.bind]
  | ok a => simp [bind, Except.bind]

theorem map_eq_ok {x : Except ε α} {g : α → β} {b : β} : x.map g = .ok b ↔ ∃ a, x = .ok a ∧ g a = b := by
  cases x with
  | error e => simp [Except.map]
  | ok a => simp [Except.map]

theorem mapM_ok_iff : ∀ {l : List α} {r : List β}, l.mapM f = .ok r ↔ Forall₂ (fun a b => f a = .ok b) l r
  | [], r => by
    rw [mapM_nil, forall₂_nil_left_iff]
    constructor
    · intro h
      exact (Except.ok.inj h).symm
    · intro h
      rw [h]
      rfl
  | a :: l, r => by
    rw [mapM_cons, forall₂_cons_left_iff]
    constructor
    · intro h
      obtain ⟨b, ha, h⟩ := bind_eq_ok.mp h
      obtain ⟨r', hl, h⟩ := bind_eq_ok.mp h
      exact ⟨b, r', ha, mapM_ok_iff.mp hl, (Except.ok.inj h).symm⟩
    · intro h
      obtain ⟨b, r', ha, hl, rfl⟩ := h
      rw [ha, mapM_ok_iff.mpr hl]
      rfl

theorem mem_of_mapM_ok {l : List α} {r : List β} (h : l.mapM f = .ok r) {a : α}
    (ha : a ∈ l) : ∃ b ∈ r, f a = .ok b := by
  have hall := mapM_ok_iff.mp h
  induction hall with
  | nil => exact absurd ha (not_mem_nil)
  | @cons a' b l r hab hall ih =>
    rcases mem_cons.mp ha with rfl | ha
    · exact ⟨b, mem_cons_self, hab⟩
    · obtain ⟨b', hb', hf⟩ := ih (mapM_ok_iff.mpr hall) ha
      exact ⟨b', mem_cons_of_mem _ hb', hf⟩

theorem exists_of_mem_mapM_ok {l : List α} {r : List β} (h : l.mapM f = .ok r) {b : β}
    (hb : b ∈ r) : ∃ a ∈ l, f a = .ok b := by
  have hall := mapM_ok_iff.mp h
  induction hall with
  | nil => exact absurd hb (not_mem_nil)
  | @cons a b' l r hab hall ih =>
    rcases mem_cons.mp hb with rfl | hb
    · exact ⟨a, mem_cons_self, hab⟩
    · obtain ⟨a', ha', hf⟩ := ih (mapM_ok_iff.mpr hall) hb
      exact ⟨a', mem_cons_of_mem _ ha', hf⟩

theorem mapM_of_ok {g : α → β} {l : List α} (h : ∀ a ∈ l, f a = .ok (g a)) : l.mapM f = .ok (l.map g) := by
  rw [mapM_ok_iff, forall₂_map_right_iff]
  exact forall₂_same.mpr h

theorem mapM_error_iff : ∀ {l : List α}, (∃ e, l.mapM f = .error e) ↔ ∃ a ∈ l, ∃ e, f a = .error e
  | [] => by
    simp only [mapM_nil, not_mem_nil, false_and, exists_false, iff_false]
    intro h
    obtain ⟨e, he⟩ := h
    cases he
  | a :: l => by
    rw [mapM_cons]
    cases ha : f a with
    | error e => exact ⟨fun _ => ⟨a, mem_cons_self, e, ha⟩, fun _ => ⟨e, rfl⟩⟩
    | ok b =>
      have hrest : (∃ e, (do let r ← l.mapM f; pure (b :: r)) = Except.error e) ↔ ∃ e, l.mapM f = .error e := by
        cases l.mapM f with
        | error e => exact ⟨fun _ => ⟨e, rfl⟩, fun _ => ⟨e, rfl⟩⟩
        | ok r =>
          constructor <;>
          · intro h
            obtain ⟨e, he⟩ := h
            cases he
      refine Iff.trans hrest (Iff.trans mapM_error_iff ?_)
      constructor
      · intro h
        obtain ⟨a', ha', h⟩ := h
        exact ⟨a', mem_cons_of_mem _ ha', h⟩
      · intro h
        obtain ⟨a', ha', e, he⟩ := h
        rcases mem_cons.mp ha' with rfl | ha'
        · rw [ha] at he
          cases he
        · exact ⟨a', ha', e, he⟩

end Collect
