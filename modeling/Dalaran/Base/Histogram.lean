import Dalaran.Base.Assoc
import Mathlib.Data.List.Sort

/-
  Adding up numbers by their key.

  What is wanted is each key once, in order, with the sum of its numbers (`Counts`).
  There are two ways to it: a walk over samples in the order of their keys that
  joins neighbours with one key (`join_counts`), and a map from keys to sums that
  is put in order at the end (`summed_counts`).
-/

namespace Histogram

open List

variable {κ : Type} [DecidableEq κ] {samples samples' counts counts' : List (κ × Nat)} {key : κ}

def countAt : List (κ × Nat) → κ → Nat
  | [], _ => 0
  | (k, n) :: samples, key => (if k = key then n else 0) + countAt samples key

theorem countAt_append (samples samples' : List (κ × Nat)) (key : κ) :
    countAt (samples ++ samples') key = countAt samples key + countAt samples' key := by
  induction samples with
  | nil => rw [nil_append, countAt, Nat.zero_add]
  | cons sample samples ih => rw [cons_append, countAt, countAt, ih, Nat.add_assoc]

theorem countAt_of_notMem (h : key ∉ samples.map (·.1)) : countAt samples key = 0 := by
  induction samples with
  | nil => rfl
  | cons sample samples ih =>
    rw [map_cons, mem_cons, not_or] at h
    rw [countAt, if_neg fun heq => h.1 heq.symm, ih h.2]

theorem countAt_map {α : Type} {l : List α} {sample : α → κ × Nat} {p : α → Bool}
    (h : ∀ a ∈ l, (if (sample a).1 = key then (sample a).2 else 0) = if p a then 1 else 0) :
    countAt (l.map sample) key = l.countP p := by
  induction l with
  | nil => rfl
  | cons a l ih =>
    rw [map_cons, countAt, h a mem_cons_self, ih fun b hb => h b (mem_cons_of_mem a hb), countP_cons, Nat.add_comm]

theorem countAt_zip_add : ∀ (keys : List κ) (l l' : List Nat), l.length = l'.length →
    countAt (keys.zip (l.zipWith (· + ·) l')) key = countAt (keys.zip l) key + countAt (keys.zip l') key
  | [], _, _, _ => rfl
  | _ :: _, [], [], _ => rfl
  | k :: keys, n :: l, n' :: l', h => by
    have ih := @countAt_zip_add keys l l' (by simpa using h)
    rw [zipWith_cons_cons, zip_cons_cons, zip_cons_cons, zip_cons_cons, countAt, countAt, countAt, ih]
    split
    · omega
    · omega

theorem countAt_zip_zero (keys : List κ) (n : Nat) (key : κ) : countAt (keys.zip (List.replicate n 0)) key = 0 := by
  induction keys generalizing n with
  | nil => rfl
  | cons k keys ih =>
    cases n with
    | zero => rfl
    | succ n => rw [replicate_succ, zip_cons_cons, countAt, ih, ite_self]

theorem sum_countAt {keys : List κ} (hnodup : keys.Nodup) (h : ∀ sample ∈ samples, sample.1 ∈ keys) :
    (keys.map (countAt samples)).sum = (samples.map (·.2)).sum := by
  have hone : ∀ (k : κ) (n : Nat), ∀ {keys : List κ}, keys.Nodup →
      (keys.map fun key => if k = key then n else 0).sum = if k ∈ keys then n else 0 := by
    intro k n keys hnodup
    induction keys with
    | nil => rfl
    | cons key keys ih =>
      obtain ⟨hnotMem, hnodup⟩ := nodup_cons.mp hnodup
      rw [map_cons, sum_cons, ih hnodup]
      by_cases hk : k = key
      · subst hk
        simp [hnotMem]
      · simp [hk]
  induction samples with
  | nil =>
    apply sum_eq_zero
    intro n hn
    obtain ⟨key, -, rfl⟩ := mem_map.mp hn
    rfl
  | cons sample samples ih =>
    have hadd : keys.map (countAt (sample :: samples)) =
        keys.map fun key => (if sample.1 = key then sample.2 else 0) + countAt samples key := rfl
    rw [hadd, sum_map_add, hone _ _ hnodup, if_pos (h sample mem_cons_self),
      ih fun sample' hmem => h sample' (mem_cons_of_mem _ hmem)]
    rfl

/-! ## Adding up in a map -/

def addAll (sums : Assoc κ Nat) (samples : List (κ × Nat)) : Assoc κ Nat :=
  samples.foldl (fun sums sample => Assoc.upsert sums sample.1 0 (· + sample.2)) sums

theorem addAll_append (sums : Assoc κ Nat) (samples samples' : List (κ × Nat)) :
    addAll sums (samples ++ samples') = addAll (addAll sums samples) samples' :=
  foldl_append

theorem lookup_addAll (sums : Assoc κ Nat) (samples : List (κ × Nat)) (key : κ) :
    (addAll sums samples).lookup key =
      if key ∈ samples.map (·.1) then some ((sums.lookup key).getD 0 + countAt samples key) else sums.lookup key := by
  induction samples generalizing sums with
  | nil => rfl
  | cons sample samples ih =>
    show (addAll (Assoc.upsert sums sample.1 0 (· + sample.2)) samples).lookup key = _
    rw [ih, Assoc.lookup_upsert, map_cons, countAt]
    by_cases hkey : key = sample.1
    · subst hkey
      rw [if_pos rfl, if_pos rfl, if_pos mem_cons_self, Option.getD_some]
      split
      · rw [Nat.add_assoc]
      · rename_i hnotMem
        rw [countAt_of_notMem hnotMem, Nat.add_zero]
    · have hne : ¬sample.1 = key := fun heq => hkey heq.symm
      rw [if_neg hkey, if_neg hne, Nat.zero_add]
      simp only [mem_cons, hkey, false_or]

/-! ## Sums in order -/

/-- Each key of the samples once, in order, with the sum of its numbers. -/
structure Counts [LT κ] (counts samples : List (κ × Nat)) : Prop where
  ascends : counts.Pairwise fun a b => a.1 < b.1
  mem : ∀ key n, (key, n) ∈ counts ↔ key ∈ samples.map (·.1) ∧ n = countAt samples key

variable [LinearOrder κ]

namespace Counts

theorem nil : Counts ([] : List (κ × Nat)) [] where
  ascends := .nil
  mem key n := by simp

theorem mem_keys (h : Counts counts samples) : key ∈ counts.map (·.1) ↔ key ∈ samples.map (·.1) := by
  constructor
  · intro hkey
    obtain ⟨⟨k, n⟩, hmem, rfl⟩ := mem_map.mp hkey
    exact ((h.mem k n).mp hmem).1
  · intro hkey
    exact mem_map_of_mem (f := (·.1)) ((h.mem key _).mpr ⟨hkey, rfl⟩)

theorem sum_eq (h : Counts counts samples) : (counts.map (·.2)).sum = (samples.map (·.2)).sum := by
  have hnodup : (counts.map (·.1)).Nodup := by
    apply pairwise_map.mpr
    exact h.ascends.imp fun hlt => ne_of_lt hlt
  have hsums : counts.map (·.2) = (counts.map (·.1)).map (countAt samples) := by
    rw [map_map]
    apply map_congr_left
    intro a ha
    exact ((h.mem a.1 a.2).mp ha).2
  rw [hsums, sum_countAt hnodup]
  intro sample hmem
  exact h.mem_keys.mpr (mem_map_of_mem hmem)

theorem add_to_last {n m : Nat} (h : Counts (counts ++ [(key, n)]) samples) :
    Counts (counts ++ [(key, n + m)]) (samples ++ [(key, m)]) := by
  have hbelow : ∀ a ∈ counts, a.1 < key := by
    intro a ha
    exact (pairwise_append.mp h.ascends).2.2 a ha _ mem_cons_self
  have hlast := (h.mem key n).mp (mem_append_right counts mem_cons_self)
  refine ⟨?_, ?_⟩
  · obtain ⟨hcounts, -, -⟩ := pairwise_append.mp h.ascends
    apply pairwise_append.mpr
    refine ⟨hcounts, pairwise_singleton .., ?_⟩
    intro a ha b hb
    rw [mem_singleton.mp hb]
    exact hbelow a ha
  · intro k c
    rw [map_append, mem_append, countAt_append, map_singleton, mem_singleton, countAt, countAt,
      mem_append, mem_singleton, Prod.mk.injEq, Nat.add_zero]
    by_cases hk : k = key
    · subst hk
      rw [if_pos rfl, ← hlast.2]
      constructor
      · intro hmem
        obtain hmem | ⟨-, hc⟩ := hmem
        · exact absurd (hbelow _ hmem) (lt_irrefl _)
        · exact ⟨.inr rfl, hc⟩
      · intro hc
        exact .inr ⟨rfl, hc.2⟩
    · have hold := h.mem k c
      rw [mem_append, mem_singleton, Prod.mk.injEq] at hold
      rw [if_neg fun heq => hk heq.symm, Nat.add_zero]
      constructor
      · intro hmem
        obtain hmem | ⟨heq, -⟩ := hmem
        · obtain ⟨hkey, hc⟩ := hold.mp (.inl hmem)
          exact ⟨.inl hkey, hc⟩
        · exact absurd heq hk
      · intro hmem
        obtain ⟨hkey | heq, hc⟩ := hmem
        · obtain hmem | ⟨heq, -⟩ := hold.mpr ⟨hkey, hc⟩
          · exact .inl hmem
          · exact absurd heq hk
        · exact absurd heq hk

theorem add_key {n : Nat} (h : Counts counts samples) (hlt : ∀ a ∈ counts, a.1 < key) :
    Counts (counts ++ [(key, n)]) (samples ++ [(key, n)]) := by
  have hnew : key ∉ samples.map (·.1) := by
    intro hkey
    obtain ⟨a, ha, heq⟩ := mem_map.mp (h.mem_keys.mpr hkey)
    exact absurd (heq ▸ hlt a ha) (lt_irrefl _)
  refine ⟨?_, ?_⟩
  · apply pairwise_append.mpr
    refine ⟨h.ascends, pairwise_singleton .., ?_⟩
    intro a ha b hb
    rw [mem_singleton.mp hb]
    exact hlt a ha
  · intro k c
    rw [map_append, mem_append, countAt_append, map_singleton, mem_singleton, countAt, countAt,
      mem_append, mem_singleton, Prod.mk.injEq, Nat.add_zero, h.mem]
    by_cases hk : k = key
    · subst hk
      rw [if_pos rfl, countAt_of_notMem hnew, Nat.zero_add]
      constructor
      · intro hmem
        obtain ⟨hkey, -⟩ | ⟨-, hc⟩ := hmem
        · exact absurd hkey hnew
        · exact ⟨.inr rfl, hc⟩
      · intro hc
        exact .inr ⟨rfl, hc.2⟩
    · rw [if_neg fun heq => hk heq.symm, Nat.add_zero]
      constructor
      · intro hmem
        obtain ⟨hkey, hc⟩ | ⟨heq, -⟩ := hmem
        · exact ⟨.inl hkey, hc⟩
        · exact absurd heq hk
      · intro hmem
        obtain ⟨hkey | heq, hc⟩ := hmem
        · exact .inl ⟨hkey, hc⟩
        · exact absurd heq hk

end Counts

/-! ## Joining neighbours -/

/-- What a walk has so far: the keys that are done, and the one it is at with its sum. -/
def join (state : List (κ × Nat) × (κ × Nat)) (sample : κ × Nat) : List (κ × Nat) × (κ × Nat) :=
  if sample.1 = state.2.1 then (state.1, (state.2.1, state.2.2 + sample.2))
  else (state.1 ++ [state.2], sample)

theorem join_counts {rest : List (κ × Nat)} {state : List (κ × Nat) × (κ × Nat)}
    (h : Counts (state.1 ++ [state.2]) samples) (hbehind : ∀ sample ∈ rest, state.2.1 ≤ sample.1)
    (hrest : rest.Pairwise fun a b => a.1 ≤ b.1) :
    Counts ((rest.foldl join state).1 ++ [(rest.foldl join state).2]) (samples ++ rest) := by
  induction rest generalizing state samples with
  | nil =>
    rw [append_nil]
    exact h
  | cons sample rest ih =>
    obtain ⟨hsample, hrest⟩ := pairwise_cons.mp hrest
    have hstep : Counts ((join state sample).1 ++ [(join state sample).2]) (samples ++ [sample]) ∧
        (join state sample).2.1 = sample.1 := by
      unfold join
      by_cases hkey : sample.1 = state.2.1
      · rw [if_pos hkey]
        have hadd := @Counts.add_to_last _ _ _ _ _ _ _ sample.2 h
        rw [← hkey] at hadd ⊢
        exact ⟨hadd, rfl⟩
      · rw [if_neg hkey]
        refine ⟨h.add_key ?_, rfl⟩
        have hlt : state.2.1 < sample.1 := lt_of_le_of_ne (hbehind sample mem_cons_self) fun heq => hkey heq.symm
        intro a ha
        obtain ha | ha := mem_append.mp ha
        · exact ((pairwise_append.mp h.ascends).2.2 a ha _ mem_cons_self).trans hlt
        · rw [mem_singleton.mp ha]
          exact hlt
    have hnext := ih hstep.1 (hstep.2 ▸ hsample) hrest
    rw [append_assoc] at hnext
    exact hnext

/-! ## Putting a map in order -/

theorem summed_counts (samples : List (κ × Nat)) :
    Counts ((Assoc.toList (addAll ∅ samples)).mergeSort fun a b => decide (a.1 ≤ b.1)) samples := by
  have hperm := mergeSort_perm (Assoc.toList (addAll ∅ samples)) fun a b => decide (a.1 ≤ b.1)
  refine ⟨?_, ?_⟩
  · have htrans : ∀ a b c : κ × Nat,
        decide (a.1 ≤ b.1) = true → decide (b.1 ≤ c.1) = true → decide (a.1 ≤ c.1) = true := by
      intro a b c hab hbc
      exact decide_eq_true ((of_decide_eq_true hab).trans (of_decide_eq_true hbc))
    have htotal : ∀ a b : κ × Nat, (decide (a.1 ≤ b.1) || decide (b.1 ≤ a.1)) = true := by
      intro a b
      simpa using le_total a.1 b.1
    have hsorted := pairwise_mergeSort htrans htotal (Assoc.toList (addAll ∅ samples))
    have hkeys := (hperm.map (·.1)).nodup_iff.mpr (Assoc.toList_fst_nodup (addAll ∅ samples))
    apply (hsorted.and (pairwise_map.mp hkeys)).imp
    intro a b hab
    exact lt_of_le_of_ne (of_decide_eq_true hab.1) hab.2
  · intro key n
    rw [hperm.mem_iff, Assoc.mem_toList, lookup_addAll]
    split
    · rename_i hkey
      rw [AList.lookup_empty, Option.getD_none, Nat.zero_add, Option.some.injEq, eq_comm]
      exact ⟨fun h => ⟨hkey, h⟩, fun h => h.2⟩
    · rename_i hkey
      exact ⟨fun h => absurd h (by simp), fun h => absurd h.1 hkey⟩

end Histogram
