import Dalaran.Base.Seq

/-
  The last element of each run of elements with one key.

  In a list in the order of its keys, the last element of each run is the last
  element with its key.
-/

namespace Seq

open List

variable {α κ : Type}

def lastOfRuns [DecidableEq κ] (key : α → κ) : List α → List α
  | [] => []
  | [a] => [a]
  | a :: b :: l => if key a = key b then lastOfRuns key (b :: l) else a :: lastOfRuns key (b :: l)

theorem permute_runEnds_append [DecidableEq κ] (key : α → κ) : ∀ front l : List α,
    permute (front ++ l) (runEnds front.length (l.map key)) = lastOfRuns key l
  | _, [] => rfl
  | front, [a] => by
    have hget : (front ++ [a])[front.length]? = some a := by simp
    rw [map_singleton, runEnds, permute, filterMap_cons_some hget, lastOfRuns]
    rfl
  | front, a :: b :: l => by
    have ih := permute_runEnds_append key (front ++ [a]) (b :: l)
    rw [append_assoc, singleton_append, length_append, length_singleton, map_cons] at ih
    rw [map_cons, map_cons, runEnds, lastOfRuns]
    by_cases hkey : key a = key b
    · rw [if_pos hkey, if_pos hkey, ih]
    · have hget : (front ++ a :: b :: l)[front.length]? = some a := by simp
      rw [if_neg hkey, if_neg hkey, permute, filterMap_cons_some hget]
      exact congrArg (a :: ·) ih

theorem permute_runEnds [DecidableEq κ] (key : α → κ) (l : List α) :
    permute l (runEnds 0 (l.map key)) = lastOfRuns key l :=
  permute_runEnds_append key [] l

theorem lastOfRuns_sublist [DecidableEq κ] (key : α → κ) : ∀ l : List α, (lastOfRuns key l).Sublist l
  | [] => .refl _
  | [_] => .refl _
  | a :: b :: l => by
    have ih := lastOfRuns_sublist key (b :: l)
    rw [lastOfRuns]
    split
    · exact ih.cons a
    · exact ih.cons_cons a

theorem exists_mem_lastOfRuns [DecidableEq κ] (key : α → κ) : ∀ {l : List α} {a : α}, a ∈ l →
    ∃ b ∈ lastOfRuns key l, key b = key a
  | [_], a, h => ⟨a, h, rfl⟩
  | a :: b :: l, c, h => by
    have ih := fun {c : α} => @exists_mem_lastOfRuns _ key (b :: l) c
    rw [lastOfRuns]
    by_cases hkey : key a = key b
    · rw [if_pos hkey]
      obtain rfl | hc := mem_cons.mp h
      · rw [hkey]
        exact ih mem_cons_self
      · exact ih hc
    · rw [if_neg hkey]
      obtain rfl | hc := mem_cons.mp h
      · exact ⟨c, mem_cons_self, rfl⟩
      · obtain ⟨d, hd, heq⟩ := ih hc
        exact ⟨d, mem_cons_of_mem _ hd, heq⟩

theorem lastOfRuns_eq_nil_iff [DecidableEq κ] {key : α → κ} {l : List α} : lastOfRuns key l = [] ↔ l = [] := by
  constructor
  · intro h
    apply eq_nil_iff_forall_not_mem.mpr
    intro a ha
    obtain ⟨b, hb, -⟩ := exists_mem_lastOfRuns key ha
    rw [h] at hb
    exact absurd hb not_mem_nil
  · intro h
    rw [h]
    rfl

section Ordered

variable [DecidableEq κ] [PartialOrder κ] {key : α → κ}

theorem lastOfRuns_pairwise : ∀ {l : List α}, l.Pairwise (fun a b => key a ≤ key b) →
    (lastOfRuns key l).Pairwise fun a b => key a < key b
  | [], _ => .nil
  | [a], _ => pairwise_singleton _ a
  | a :: b :: l, h => by
    obtain ⟨ha, hrest⟩ := pairwise_cons.mp h
    rw [lastOfRuns]
    by_cases hkey : key a = key b
    · rw [if_pos hkey]
      exact lastOfRuns_pairwise hrest
    · rw [if_neg hkey]
      refine pairwise_cons.mpr ⟨?_, lastOfRuns_pairwise hrest⟩
      intro c hc
      have hlt : key a < key b := lt_of_le_of_ne (ha b mem_cons_self) hkey
      obtain rfl | hmem := mem_cons.mp ((lastOfRuns_sublist key _).subset hc)
      · exact hlt
      · exact hlt.trans_le ((pairwise_cons.mp hrest).1 c hmem)

theorem getLast?_of_mem_lastOfRuns : ∀ {l : List α}, l.Pairwise (fun a b => key a ≤ key b) → ∀ {a : α},
    a ∈ lastOfRuns key l → (l.filter fun b => decide (key b = key a)).getLast? = some a
  | [a], _, c, hc => by
    obtain rfl := mem_singleton.mp hc
    simp
  | a :: b :: l, h, c, hc => by
    obtain ⟨ha, hrest⟩ := pairwise_cons.mp h
    -- an element of the rest is its last one with this key, whether or not the first has the key too
    have hlast : c ∈ lastOfRuns key (b :: l) →
        ((a :: b :: l).filter fun d => decide (key d = key c)).getLast? = some c := by
      intro hmem
      have ih := getLast?_of_mem_lastOfRuns hrest hmem
      rw [filter_cons]
      split
      · rw [List.getLast?_cons, ih]
        rfl
      · exact ih
    rw [lastOfRuns] at hc
    by_cases hkey : key a = key b
    · rw [if_pos hkey] at hc
      exact hlast hc
    · rw [if_neg hkey] at hc
      obtain rfl | hmem := mem_cons.mp hc
      · -- the keys of the rest are greater
        have hlt : key c < key b := lt_of_le_of_ne (ha b mem_cons_self) hkey
        have hnone : ((b :: l).filter fun d => decide (key d = key c)) = [] := by
          apply filter_eq_nil_iff.mpr
          intro d hd heq
          have hle : key b ≤ key d := by
            obtain rfl | hmem := mem_cons.mp hd
            · exact le_rfl
            · exact (pairwise_cons.mp hrest).1 d hmem
          exact absurd (of_decide_eq_true heq) (hlt.trans_le hle).ne'
        rw [filter_cons, if_pos (decide_eq_true rfl), hnone]
        rfl
      · exact hlast hmem

end Ordered

end Seq
