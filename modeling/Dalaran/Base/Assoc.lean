import Mathlib.Algebra.GroupWithZero.Nat
import Mathlib.Algebra.BigOperators.Group.List.Basic
import Mathlib.Data.List.AList
import Mathlib.Data.List.Induction
import Mathlib.Tactic.Common

/-
  Finite maps, on top of the library's association lists.

  `Assoc K V` is the non-dependent case of `AList`. This module adds what code does
  to hash maps: `modify` (a `get_mut`), `upsert` (an `entry(..).or_default()`), maps
  over the values, and the sum of a weight over the entries. Every `lookup_*` lemma
  has an `if` on the key.
-/

abbrev Assoc (K V : Type) := AList (fun _ : K => V)

namespace Assoc

open List Option AList

variable {K V W : Type} [DecidableEq K]

def toList (s : Assoc K V) : List (K × V) := s.entries.map fun e => (e.1, e.2)

def values (s : Assoc K V) : List V := s.entries.map fun e => e.2

def modify (s : Assoc K V) (k : K) (f : V → V) : Assoc K V :=
  match s.lookup k with
  | some v => s.insert k (f v)
  | none => s

/-- Change the value at `k`, starting from `d` when there is none. -/
def upsert (s : Assoc K V) (k : K) (d : V) (f : V → V) : Assoc K V :=
  s.insert k (f ((s.lookup k).getD d))

def sum (s : Assoc K V) (g : K → V → Nat) : Nat := (s.entries.map fun e => g e.1 e.2).sum

/-! ## Lookups -/

theorem lookup_insert_ite (s : Assoc K V) (k k' : K) (v : V) :
    (insert k v s).lookup k' = if k' = k then some v else s.lookup k' := by
  by_cases h : k' = k
  · subst h
    simp
  · simp [h]

theorem lookup_erase_ite (s : Assoc K V) (k k' : K) :
    (erase k s).lookup k' = if k' = k then none else s.lookup k' := by
  by_cases h : k' = k
  · subst h
    simp
  · simp [h]

theorem lookup_modify (s : Assoc K V) (k k' : K) (f : V → V) :
    (modify s k f).lookup k' = if k' = k then (s.lookup k).map f else s.lookup k' := by
  unfold modify
  cases hk : s.lookup k with
  | some v => rw [lookup_insert_ite]; rfl
  | none =>
    by_cases h : k' = k
    · subst h
      simp [hk]
    · simp [h]

theorem lookup_upsert (s : Assoc K V) (k k' : K) (d : V) (f : V → V) :
    (upsert s k d f).lookup k' = if k' = k then some (f ((s.lookup k).getD d)) else s.lookup k' :=
  lookup_insert_ite s k k' _

variable {s : Assoc K V} {k : K} {v : V}

theorem mem_toList : (k, v) ∈ toList s ↔ s.lookup k = some v := by
  rw [← mem_def, mem_lookup_iff]
  simp [toList]

omit [DecidableEq K] in
theorem toList_fst_nodup (s : Assoc K V) : ((toList s).map Prod.fst).Nodup := by
  have h : (toList s).map Prod.fst = s.entries.keys := by
    simp [toList, List.keys, Function.comp_def]
  rw [h]
  exact s.nodupKeys

theorem mem_values : v ∈ values s ↔ ∃ k, s.lookup k = some v := by
  simp only [values, List.mem_map, ← mem_toList, toList]
  constructor
  · rintro ⟨e, he, rfl⟩
    exact ⟨e.1, e, he, rfl⟩
  · rintro ⟨k, e, he, h⟩
    exact ⟨e, he, congrArg Prod.snd h⟩

theorem mem_keys_iff : k ∈ s.keys ↔ ∃ v, s.lookup k = some v := by
  rw [← AList.mem_keys, ← AList.lookup_isSome, isSome_iff_exists]

theorem not_mem_iff : k ∉ s ↔ s.lookup k = none := by
  rw [← AList.lookup_isSome]
  simp

theorem entries_ne_nil_iff : s.entries ≠ [] ↔ ∃ k, (s.lookup k).isSome := by
  constructor
  · intro h
    obtain ⟨e, he⟩ := exists_mem_of_ne_nil _ h
    exact ⟨e.1, isSome_iff_exists.mpr ⟨e.2, mem_lookup_iff.mpr he⟩⟩
  · rintro ⟨k, hk⟩
    obtain ⟨v, hv⟩ := isSome_iff_exists.mp hk
    exact ne_nil_of_mem (mem_lookup_iff.mp hv)

/-! ## Maps over the values -/

theorem lookup_eq_dlookup (s : Assoc K V) (k : K) : s.lookup k = s.entries.dlookup k := rfl

/-- Map every value, the key in hand, dropping the entries sent to `none`. -/
def filterMap (s : Assoc K V) (f : K → V → Option W) : Assoc K W :=
  ⟨s.entries.filterMap fun e => (f e.1 e.2).map (Sigma.mk e.1), by
    have h := s.nodupKeys
    generalize s.entries = l at h
    induction l with
    | nil => exact nodupKeys_nil
    | cons e l ih =>
      obtain ⟨he, hl⟩ := nodupKeys_cons.mp h
      rw [filterMap_cons]
      split
      · exact ih hl
      · rename_i b hb
        obtain ⟨w, _, rfl⟩ := map_eq_some_iff.mp hb
        refine nodupKeys_cons.mpr ⟨fun hk => he ?_, ih hl⟩
        obtain ⟨e', he', hfst⟩ := List.mem_map.mp hk
        obtain ⟨e'', hmem, hb'⟩ := mem_filterMap.mp he'
        obtain ⟨w', _, rfl⟩ := map_eq_some_iff.mp hb'
        exact List.mem_map.mpr ⟨e'', hmem, hfst⟩⟩

theorem lookup_filterMap (s : Assoc K V) (f : K → V → Option W) (k : K) :
    (filterMap s f).lookup k = (s.lookup k).bind (f k) := by
  ext w
  rw [← mem_def, mem_lookup_iff]
  simp only [filterMap, mem_filterMap, map_eq_some_iff, bind_eq_some_iff]
  constructor
  · rintro ⟨⟨k', v⟩, hmem, w', hw', heq⟩
    cases heq
    exact ⟨v, mem_lookup_iff.mpr hmem, hw'⟩
  · rintro ⟨v, hv, hw⟩
    exact ⟨⟨k, v⟩, mem_lookup_iff.mp hv, w, hw, rfl⟩

theorem lookup_union (s t : Assoc K V) (k : K) : (s ∪ t).lookup k = (s.lookup k).or (t.lookup k) := by
  cases h : s.lookup k with
  | some v => rw [lookup_union_left (lookup_isSome.mp (isSome_of_eq_some h)), h, some_or]
  | none => rw [lookup_union_right (not_mem_iff.mpr h), none_or]

def map (s : Assoc K V) (f : K → V → W) : Assoc K W := filterMap s fun k v => some (f k v)

theorem lookup_map (s : Assoc K V) (f : K → V → W) (k : K) : (map s f).lookup k = (s.lookup k).map (f k) := by
  rw [map, lookup_filterMap]
  cases s.lookup k <;> rfl

/-- A map with one entry after another inserted; the last one of a key wins. -/
def ofList (l : List (K × V)) : Assoc K V :=
  l.foldl (fun s e => s.insert e.1 e.2) ∅

theorem lookup_ofList {l : List (K × V)} (h : (l.map Prod.fst).Nodup) :
    (ofList l).lookup k = some v ↔ (k, v) ∈ l := by
  induction l using reverseRecOn with
  | nil => exact iff_of_false (by rw [ofList, foldl_nil, lookup_empty]; simp) not_mem_nil
  | append_singleton l e ih =>
    rw [map_append, nodup_append] at h
    have hfresh : ∀ d ∈ l, d.1 ≠ e.1 := fun d hd =>
      h.2.2 _ (List.mem_map_of_mem hd) _ (mem_singleton.mpr rfl)
    rw [ofList, foldl_append, foldl_cons, foldl_nil, lookup_insert_ite, mem_append, mem_singleton]
    split_ifs with heq
    · rw [some_inj]
      constructor
      · intro hv
        exact .inr (Prod.ext heq hv.symm)
      · intro hmem
        rcases hmem with hmem | hmem
        · exact absurd heq (hfresh _ hmem)
        · rw [← hmem]
    · rw [← ofList, ih h.1]
      exact (or_iff_left fun hmem => heq (congrArg Prod.fst hmem)).symm

/-! ## Sums over the entries -/

theorem entries_perm_erase (h : s.lookup k = some v) : s.entries.Perm (⟨k, v⟩ :: (erase k s).entries) := by
  refine (perm_ext_iff_of_nodup s.nodupKeys.nodup ?_).mpr fun e => ?_
  · refine nodup_cons.mpr ⟨fun hmem => ?_, (erase k s).nodupKeys.nodup⟩
    have := mem_lookup_iff.mpr hmem
    simp at this
  · obtain ⟨k', v'⟩ := e
    rw [mem_cons, ← mem_lookup_iff, ← mem_lookup_iff, lookup_erase_ite]
    by_cases hk : k' = k
    · subst hk
      simp [h, eq_comm]
    · simp [hk]

theorem sum_erase (g : K → V → Nat) (h : s.lookup k = some v) : sum s g = g k v + sum (erase k s) g := by
  unfold sum
  rw [((entries_perm_erase h).map _).sum_eq]
  simp

theorem erase_eq_self (h : s.lookup k = none) : (erase k s).entries = s.entries := by
  have hk : k ∉ s.entries.keys := fun hmem => by
    rw [← not_mem_iff] at h
    exact h hmem
  exact kerase_of_notMem_keys hk

theorem values_perm_erase (h : s.lookup k = some v) : (values s).Perm (v :: values (erase k s)) :=
  (entries_perm_erase h).map fun e : Sigma fun _ : K => V => e.2

theorem values_insert_perm (v : V) (h : s.lookup k = none) :
    (values (insert k v s)).Perm (v :: values s) := by
  have he : List.kerase k s.entries = s.entries := erase_eq_self h
  unfold values
  rw [entries_insert, he]
  exact Perm.refl _

theorem sum_insert_of_none (v : V) (g : K → V → Nat)
    (h : s.lookup k = none) : sum (insert k v s) g = g k v + sum s g := by
  unfold sum
  have he : List.kerase k s.entries = s.entries := erase_eq_self h
  rw [entries_insert, he]
  simp

theorem sum_insert_of_some (v' : V) (g : K → V → Nat)
    (h : s.lookup k = some v) : sum (insert k v' s) g + g k v = g k v' + sum s g := by
  rw [sum_erase g h]
  unfold sum
  rw [entries_insert]
  simp only [map_cons, sum_cons]
  have : (erase k s).entries = List.kerase k s.entries := rfl
  rw [this]
  omega

theorem sum_modify (s : Assoc K V) (k : K) (f : V → V) (g : K → V → Nat)
    (hg : ∀ v, g k (f v) = g k v) : sum (modify s k f) g = sum s g := by
  unfold modify
  cases hk : s.lookup k with
  | none => rfl
  | some v =>
    have := sum_insert_of_some (f v) g hk
    rw [hg] at this
    simp only
    omega

theorem le_sum (g : K → V → Nat) (h : s.lookup k = some v) : g k v ≤ sum s g := by
  rw [sum_erase g h]
  omega

theorem sum_eq_zero_iff {g : K → V → Nat} : sum s g = 0 ↔ ∀ k v, s.lookup k = some v → g k v = 0 := by
  constructor
  · intro h k v hk
    have := le_sum g hk
    omega
  · intro h
    refine sum_eq_zero fun n hn => ?_
    obtain ⟨⟨k, v⟩, hmem, rfl⟩ := List.mem_map.mp hn
    exact h k v (mem_lookup_iff.mpr hmem)

theorem exists_of_sum_pos {g : K → V → Nat} (h : 0 < sum s g) : ∃ k v, s.lookup k = some v ∧ 0 < g k v := by
  by_contra hc
  push Not at hc
  have : sum s g = 0 := sum_eq_zero_iff.mpr fun k v hk => Nat.le_zero.mp (hc k v hk)
  omega

end Assoc
