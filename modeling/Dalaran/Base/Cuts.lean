import Mathlib.Data.List.Infix
import Mathlib.Tactic.Common

/-
  Cutting a sequence where it is full and bad.

  What has been collected is handed over in front of the next element, if it is bad
  and has enough elements for that; one that is full and not bad yet grows on. So no
  bad part is longer than the limit exactly if each block of as many elements is bad
  itself, as long as there is something bad from its start on (`cuts_bounded_iff`).
-/

namespace Seq

open List

variable {α : Type} {n : Nat} {bad : List α → Bool}

/-- The parts of a sequence, with what has been collected in front. -/
def cuts (n : Nat) (bad : List α → Bool) : List α → List α → List (List α)
  | run, [] => [run]
  | run, a :: l =>
    if !run.isEmpty && decide (n ≤ run.length) && bad run then run :: cuts n bad [a] l
    else cuts n bad (run ++ [a]) l

/-- What contains something bad is bad, and a single element is not. -/
structure Spreads (bad : List α → Bool) : Prop where
  infix_ : ∀ {l l' : List α}, l.IsInfix l' → bad l = true → bad l' = true
  length : ∀ {l : List α}, bad l = true → 2 ≤ l.length

/-- Each block is bad itself, as long as there is something bad from its start on. -/
def BlocksBad (n : Nat) (bad : List α → Bool) (l : List α) : Prop :=
  ∀ k, bad (l.drop (k * max n 1)) = true → bad ((l.drop (k * max n 1)).take (max n 1)) = true

theorem Spreads.not_nil (h : Spreads bad) : ¬bad [] = true := by
  intro hnil
  have := h.length hnil
  simp at this

theorem cuts_cons_of_not_bad {run : List α} (h : ¬bad run = true) (a : α) (l : List α) :
    cuts n bad run (a :: l) = cuts n bad (run ++ [a]) l := by
  rw [cuts, if_neg]
  simp [h]

theorem cuts_of_not_bad (hbad : Spreads bad) {l run : List α} (h : ¬bad (run ++ l) = true) :
    cuts n bad run l = [run ++ l] := by
  induction l generalizing run with
  | nil => rw [cuts, append_nil]
  | cons a l ih =>
    have hrun : ¬bad run = true := fun hrun => h (hbad.infix_ (prefix_append run (a :: l)).isInfix hrun)
    rw [cuts_cons_of_not_bad hrun, ih, append_assoc, singleton_append]
    rwa [append_assoc, singleton_append]

theorem cuts_append_cons (hbad : Spreads bad) {p run : List α} (h : ¬bad (run ++ p) = true) (a : α) (l : List α) :
    cuts n bad run (p ++ a :: l) = cuts n bad (run ++ p ++ [a]) l := by
  induction p generalizing run with
  | nil =>
    rw [append_nil] at h ⊢
    exact cuts_cons_of_not_bad h a l
  | cons b p ih =>
    have hrun : ¬bad run = true := fun hrun => h (hbad.infix_ (prefix_append run (b :: p)).isInfix hrun)
    have hsplit : run ++ b :: p = run ++ [b] ++ p := by rw [append_assoc, singleton_append]
    rw [hsplit] at h ⊢
    rw [cons_append, cuts_cons_of_not_bad hrun, ih h]

theorem cuts_head (run l : List α) : ∃ more, run ++ more ∈ cuts n bad run l := by
  induction l generalizing run with
  | nil => exact ⟨[], by simp [cuts]⟩
  | cons a l ih =>
    unfold cuts
    split
    · exact ⟨[], by simp⟩
    · obtain ⟨more, hmore⟩ := ih (run ++ [a])
      rw [append_assoc] at hmore
      exact ⟨[a] ++ more, hmore⟩

theorem cuts_of_bad (hbad : Spreads bad) {l run : List α} (h : bad run = true) (hlength : run.length ≤ max n 1) :
    cuts n bad run l = if (run ++ l).length ≤ max n 1 then [run ++ l]
      else (run ++ l).take (max n 1) :: cuts n bad [] ((run ++ l).drop (max n 1)) := by
  induction l generalizing run with
  | nil => rw [append_nil, if_pos hlength, cuts]
  | cons a l ih =>
    have htwo := hbad.length h
    have hne : run.isEmpty = false := by
      cases run with
      | nil => simp at htwo
      | cons b run => rfl
    rw [cuts]
    by_cases hfull : n ≤ run.length
    · have heq : max n 1 = run.length := by omega
      rw [if_pos (by simp [hne, hfull, h]), if_neg, heq, take_left, drop_left]
      · rfl
      · rw [length_append, length_cons]
        omega
    · have hsplit : run ++ [a] ++ l = run ++ a :: l := by rw [append_assoc, singleton_append]
      rw [if_neg (by simp [hfull]), ih, hsplit]
      · exact hbad.infix_ (prefix_append run [a]).isInfix h
      · rw [length_append, length_singleton]
        omega

theorem exists_first_bad (hbad : Spreads bad) {l : List α} (h : bad l = true) :
    ∃ p a q, l = p ++ a :: q ∧ ¬bad p = true ∧ bad (p ++ [a]) = true := by
  induction l using reverseRecOn with
  | nil => exact absurd h hbad.not_nil
  | append_singleton l a ih =>
    by_cases hl : bad l = true
    · obtain ⟨p, b, q, rfl, hp, hb⟩ := ih hl
      exact ⟨p, b, q ++ [a], by simp, hp, hb⟩
    · exact ⟨l, a, [], rfl, hl, h⟩

theorem blocksBad_of_not_bad (hbad : Spreads bad) {l : List α} (h : ¬bad l = true) : BlocksBad n bad l := by
  intro k hk
  exact absurd (hbad.infix_ (drop_suffix _ l).isInfix hk) h

theorem blocksBad_drop {l : List α} (h : bad (l.take (max n 1)) = true) :
    BlocksBad n bad l ↔ BlocksBad n bad (l.drop (max n 1)) := by
  have hshift : ∀ k, (l.drop (max n 1)).drop (k * max n 1) = l.drop ((k + 1) * max n 1) := by
    intro k
    rw [drop_drop, Nat.succ_mul, Nat.add_comm]
  constructor
  · intro hl k hk
    rw [hshift] at hk ⊢
    exact hl (k + 1) hk
  · intro hl k hk
    cases k with
    | zero => rwa [Nat.zero_mul, drop_zero]
    | succ k =>
      rw [← hshift] at hk ⊢
      exact hl k hk

theorem cuts_bounded_iff (hbad : Spreads bad) (l : List α) :
    (∀ run ∈ cuts n bad [] l, bad run = true → run.length ≤ n) ↔ BlocksBad n bad l := by
  induction hm : l.length using Nat.strong_induction_on generalizing l with
  | _ m ih =>
    by_cases hl : bad l = true
    · obtain ⟨p, a, q, rfl, hp, hpa⟩ := exists_first_bad hbad hl
      have hcuts : cuts n bad [] (p ++ a :: q) = cuts n bad (p ++ [a]) q :=
        @cuts_append_cons _ n bad hbad p [] hp a q
      have hsplit : p ++ [a] ++ q = p ++ a :: q := by rw [append_assoc, singleton_append]
      have hlength : (p ++ [a]).length = p.length + 1 := by rw [length_append, length_singleton]
      by_cases hshort : p.length + 1 ≤ max n 1
      · -- the first part is bad before it is full
        have htwo := hbad.length hpa
        have htake : bad ((p ++ a :: q).take (max n 1)) = true := by
          refine hbad.infix_ (IsPrefix.isInfix ?_) hpa
          rw [← hsplit]
          exact prefix_take_iff.mpr ⟨prefix_append _ _, by omega⟩
        rw [blocksBad_drop htake, hcuts, cuts_of_bad hbad hpa (by omega), hsplit]
        split
        · next hwhole =>
          rw [drop_of_length_le hwhole]
          constructor
          · intro _
            exact blocksBad_of_not_bad hbad hbad.not_nil
          · intro _ run hrun _
            rw [mem_singleton.mp hrun]
            omega
        · next hlong =>
          rw [forall_mem_cons, ← ih _ _ _ rfl]
          · constructor
            · intro h
              exact h.2
            · intro h
              refine ⟨fun _ => ?_, h⟩
              have := length_take_le (max n 1) (p ++ a :: q)
              omega
          · rw [length_drop]
            omega
      · -- it is full before it is bad
        constructor
        · intro h
          obtain ⟨more, hmore⟩ := @cuts_head _ n bad (p ++ [a]) q
          have hle := h _ (hcuts ▸ hmore) (hbad.infix_ (prefix_append _ _).isInfix hpa)
          rw [length_append] at hle
          omega
        · intro h
          have hblock := h 0
          rw [Nat.zero_mul, drop_zero] at hblock
          refine absurd (hbad.infix_ (IsPrefix.isInfix ?_) (hblock hl)) hp
          rw [take_append_of_le_length (by omega)]
          exact take_prefix _ _
    · rw [@cuts_of_not_bad _ n bad hbad l [] hl, nil_append]
      constructor
      · intro _
        exact blocksBad_of_not_bad hbad hl
      · intro _ run hrun h
        rw [mem_singleton.mp hrun] at h
        exact absurd h hl

end Seq
