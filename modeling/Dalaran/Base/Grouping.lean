import Dalaran.Base.Assoc

/-
  Grouping a sequence by a key, in a map from keys to lists.

  `groupInto` is the loop `for a in l { groups.entry(key(a)).or_default().push(a)
  }`: each list of the map is the part of the sequence with its key, in order
  (`lookup_groupInto`). `orInsert` and `upsertAll` are two more ways to fill a map.
-/

namespace Assoc

open List

variable {K V W α : Type} [DecidableEq K]

/-! ## Filling a map -/

/-- Make an entry at `k` if there is none: `entry(k).or_insert(d)`. -/
def orInsert (s : Assoc K V) (k : K) (d : V) : Assoc K V :=
  match s.lookup k with
  | some _ => s
  | none => s.insert k d

theorem lookup_orInsert (s : Assoc K V) (k k' : K) (d : V) :
    (orInsert s k d).lookup k' = if k' = k then some ((s.lookup k).getD d) else s.lookup k' := by
  unfold orInsert
  cases hk : s.lookup k with
  | none => exact lookup_insert_ite s k k' d
  | some v =>
    by_cases h : k' = k
    · subst h
      simp [hk]
    · simp [h]

theorem orInsert_of_some {s : Assoc K V} {k : K} {v : V} (d : V) (h : s.lookup k = some v) :
    orInsert s k d = s := by
  simp [orInsert, h]

/-- Write to the key of every entry of a list, one after the other. -/
def upsertAll (s : Assoc K V) (l : List (K × W)) (d : K → W → V) (f : W → V → V) : Assoc K V :=
  l.foldl (fun s e => upsert s e.1 (d e.1 e.2) (f e.2)) s

theorem lookup_upsertAll_list (d : K → W → V) (f : W → V → V) :
    ∀ (l : List (K × W)) (s : Assoc K V), (l.map Prod.fst).Nodup → ∀ k,
      ((∀ w, (k, w) ∈ l → (upsertAll s l d f).lookup k = some (f w ((s.lookup k).getD (d k w)))) ∧
        ((∀ w, (k, w) ∉ l) → (upsertAll s l d f).lookup k = s.lookup k))
  | [], s, _, k => ⟨fun w hw => absurd hw (not_mem_nil), fun _ => rfl⟩
  | e :: l, s, hnodup, k => by
    rw [map_cons] at hnodup
    obtain ⟨hnotin, hnodup⟩ := nodup_cons.mp hnodup
    obtain ⟨hin, hout⟩ := lookup_upsertAll_list d f l (upsert s e.1 (d e.1 e.2) (f e.2)) hnodup k
    have hstep : upsertAll s (e :: l) d f = upsertAll (upsert s e.1 (d e.1 e.2) (f e.2)) l d f := rfl
    rw [hstep]
    constructor
    · intro w hw
      rcases mem_cons.mp hw with rfl | hw
      · -- written now, and by no later entry
        rw [hout fun w' hw' => hnotin (mem_map.mpr ⟨(k, w'), hw', rfl⟩), lookup_upsert, if_pos rfl]
      · have hne : k ≠ e.1 := by
          intro heq
          subst heq
          exact hnotin (mem_map.mpr ⟨_, hw, rfl⟩)
        rw [hin w hw, lookup_upsert, if_neg hne]
    · intro h
      have hne : k ≠ e.1 := by
        intro heq
        subst heq
        exact h e.2 mem_cons_self
      rw [hout fun w hw => h w (mem_cons_of_mem _ hw), lookup_upsert, if_neg hne]

theorem lookup_upsertAll (s : Assoc K V) (t : Assoc K W) (d : K → W → V) (f : W → V → V) (k : K) :
    (upsertAll s (toList t) d f).lookup k =
      (t.lookup k).elim (s.lookup k) fun w => some (f w ((s.lookup k).getD (d k w))) := by
  obtain ⟨hin, hout⟩ := lookup_upsertAll_list d f (toList t) s (toList_fst_nodup t) k
  cases hk : t.lookup k with
  | some w => exact hin w (mem_toList.mpr hk)
  | none =>
    refine hout ?_
    intro w hw
    rw [mem_toList, hk] at hw
    cases hw

/-! ## Grouping -/

/-- One list per key, each in the order of the sequence. -/
def groupInto (key : α → K) (l : List α) : Assoc K (List α) :=
  l.foldl (fun groups a => upsert groups (key a) [] (· ++ [a])) ∅

theorem groupInto_append (key : α → K) (l : List α) (a : α) :
    groupInto key (l ++ [a]) = upsert (groupInto key l) (key a) [] (· ++ [a]) := by
  simp [groupInto]

theorem lookup_groupInto (key : α → K) (l : List α) (k : K) :
    (groupInto key l).lookup k =
      if l.filter (fun a => key a = k) = [] then none else some (l.filter fun a => key a = k) := by
  induction l using reverseRecOn with
  | nil => rfl
  | append_singleton l a ih =>
    rw [groupInto_append, lookup_upsert, filter_append]
    by_cases hk : k = key a
    · subst hk
      rw [if_pos rfl, ih]
      by_cases hnil : l.filter (fun b => key b = key a) = []
      · simp [hnil]
      · simp [hnil]
    · rw [if_neg hk, ih]
      simp [Ne.symm hk]

theorem mem_values_groupInto {key : α → K} {l group : List α} :
    group ∈ values (groupInto key l) ↔ ∃ a ∈ l, group = l.filter fun b => key b = key a := by
  rw [mem_values]
  constructor
  · intro h
    obtain ⟨k, hk⟩ := h
    rw [lookup_groupInto] at hk
    split at hk
    · cases hk
    · rename_i hne
      obtain ⟨a, ha⟩ := exists_mem_of_ne_nil _ hne
      obtain ⟨hmem, hkey⟩ := mem_filter.mp ha
      obtain rfl := of_decide_eq_true hkey
      exact ⟨a, hmem, (Option.some.inj hk).symm⟩
  · intro h
    obtain ⟨a, ha, rfl⟩ := h
    refine ⟨key a, ?_⟩
    rw [lookup_groupInto, if_neg]
    exact ne_nil_of_mem (mem_filter.mpr ⟨ha, decide_eq_true rfl⟩)

theorem values_upsert_perm (s : Assoc K (List α)) (k : K) (a : α) :
    (values (upsert s k [] (· ++ [a]))).flatten.Perm ((values s).flatten ++ [a]) := by
  have hupsert : (values (upsert s k [] (· ++ [a]))).flatten =
      (((s.lookup k).getD []) ++ [a]) ++ (values (AList.erase k s)).flatten := by
    have herase : (AList.erase k s).entries = List.kerase k s.entries := rfl
    simp [upsert, values, AList.entries_insert, herase]
  have hs : ((values s).flatten).Perm (((s.lookup k).getD []) ++ (values (AList.erase k s)).flatten) := by
    cases hk : s.lookup k with
    | some v => simpa [values] using ((entries_perm_erase hk).map fun e => e.2).flatten
    | none => simp [values, erase_eq_self hk]
  rw [hupsert, append_assoc]
  refine Perm.trans (Perm.append_left _ perm_append_comm) ?_
  rw [← append_assoc]
  exact hs.symm.append_right _

theorem values_groupInto_perm (key : α → K) (l : List α) : (values (groupInto key l)).flatten.Perm l := by
  induction l using reverseRecOn with
  | nil => exact Perm.nil
  | append_singleton l a ih =>
    rw [groupInto_append]
    exact (values_upsert_perm _ _ _).trans (ih.append_right _)

end Assoc
