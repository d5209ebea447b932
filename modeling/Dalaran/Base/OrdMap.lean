import Mathlib.Order.Basic
import Mathlib.Order.Lattice
import Mathlib.Data.List.Induction
import Mathlib.Data.List.Nodup
import Mathlib.Tactic.Common

/-
  Ordered maps as lists of entries with strictly increasing keys.

  This is what a B-tree map is to the code that iterates it. What is collected
  into one keeps the last value of every key (`mem_ofList`), and a search from the
  back finds the greatest key with a property (`findLast_eq_some_iff`).
-/

/-- A map kept as the list of its entries, by strictly increasing keys. -/
structure OrdMap (κ ν : Type) [LinearOrder κ] where
  entries : List (κ × ν)
  sorted : entries.Pairwise fun a b => a.1 < b.1

namespace OrdMap

open List

variable {κ ν : Type} [LinearOrder κ]

def empty : OrdMap κ ν := ⟨[], List.Pairwise.nil⟩

def insertSorted (k : κ) (v : ν) : List (κ × ν) → List (κ × ν)
  | [] => [(k, v)]
  | e :: l => if k < e.1 then (k, v) :: e :: l else if k = e.1 then (k, v) :: l else e :: insertSorted k v l

variable {e : κ × ν} {l : List (κ × ν)} {v : ν} {k : κ}

theorem fst_of_mem_insertSorted (h : e ∈ insertSorted k v l) : e = (k, v) ∨ e ∈ l := by
  induction l with
  | nil => exact .inl (mem_singleton.mp h)
  | cons d l ih =>
    rw [insertSorted] at h
    split_ifs at h
    · exact mem_cons.mp h
    · exact (mem_cons.mp h).imp_right fun hmem => mem_cons_of_mem d hmem
    · rcases mem_cons.mp h with rfl | h
      · exact .inr mem_cons_self
      · exact (ih h).imp_right fun hmem => mem_cons_of_mem d hmem

theorem insertSorted_pairwise
    (h : l.Pairwise fun a b => a.1 < b.1) : (insertSorted k v l).Pairwise fun a b => a.1 < b.1 := by
  induction l with
  | nil => exact pairwise_singleton _ _
  | cons d l ih =>
    obtain ⟨hd, hl⟩ := pairwise_cons.mp h
    rw [insertSorted]
    split_ifs with hlt heq
    · refine pairwise_cons.mpr ⟨fun e he => ?_, h⟩
      rcases mem_cons.mp he with rfl | he
      · exact hlt
      · exact hlt.trans (hd e he)
    · refine pairwise_cons.mpr ⟨fun e he => ?_, hl⟩
      rw [heq]
      exact hd e he
    · refine pairwise_cons.mpr ⟨fun e he => ?_, ih hl⟩
      rcases fst_of_mem_insertSorted he with rfl | he
      · exact lt_of_le_of_ne (not_lt.mp hlt) (Ne.symm heq)
      · exact hd e he

def insert (m : OrdMap κ ν) (k : κ) (v : ν) : OrdMap κ ν :=
  ⟨insertSorted k v m.entries, insertSorted_pairwise m.sorted⟩

def orInsert (m : OrdMap κ ν) (k : κ) (v : ν) : OrdMap κ ν :=
  if m.entries.any (fun e => e.1 = k) then m else m.insert k v

/-- `collect`: one entry after the other. -/
def ofList (l : List (κ × ν)) : OrdMap κ ν := l.foldl (fun m e => m.insert e.1 e.2) empty

def retain (m : OrdMap κ ν) (p : κ → Bool) : OrdMap κ ν := ⟨m.entries.filter fun e => p e.1, m.sorted.filter _⟩

def findLast (m : OrdMap κ ν) (p : κ → Bool) : Option (κ × ν) := m.entries.reverse.find? fun e => p e.1

/-! ## Entries -/

theorem mem_insertSorted (h : l.Pairwise fun a b => a.1 < b.1) :
    e ∈ insertSorted k v l ↔ e = (k, v) ∨ (e.1 ≠ k ∧ e ∈ l) := by
  induction l with
  | nil => simp [insertSorted]
  | cons d l ih =>
    obtain ⟨hd, hl⟩ := pairwise_cons.mp h
    rw [insertSorted]
    split_ifs with hlt heq
    · have hne : ∀ e ∈ d :: l, e.1 ≠ k := by
        intro e he
        rcases mem_cons.mp he with rfl | he
        · exact hlt.ne'
        · exact (hlt.trans (hd e he)).ne'
      rw [mem_cons]
      exact or_congr_right ⟨fun he => ⟨hne e he, he⟩, fun he => he.2⟩
    · have hne : ∀ e ∈ l, e.1 ≠ k := fun e he => heq ▸ (hd e he).ne'
      rw [mem_cons, mem_cons]
      refine or_congr_right ⟨fun he => ⟨hne e he, .inr he⟩, fun he => he.2.resolve_left ?_⟩
      rintro rfl
      exact he.1 heq.symm
    · rw [mem_cons, ih hl, mem_cons]
      constructor
      · rintro (rfl | rfl | he)
        · exact .inr ⟨Ne.symm heq, .inl rfl⟩
        · exact .inl rfl
        · exact .inr ⟨he.1, .inr he.2⟩
      · rintro (rfl | ⟨hne, rfl | he⟩)
        · exact .inr (.inl rfl)
        · exact .inl rfl
        · exact .inr (.inr ⟨hne, he⟩)

variable {m : OrdMap κ ν}

theorem mem_insert : e ∈ (m.insert k v).entries ↔ e = (k, v) ∨ (e.1 ≠ k ∧ e ∈ m.entries) :=
  mem_insertSorted m.sorted

theorem value_unique {m : OrdMap κ ν} {k : κ} {v w : ν} (hv : (k, v) ∈ m.entries) (hw : (k, w) ∈ m.entries) :
    v = w := by
  have hkeys : (m.entries.map Prod.fst).Nodup := by
    rw [List.Nodup, pairwise_map]
    exact m.sorted.imp fun hlt => hlt.ne
  exact (Prod.mk.inj (inj_on_of_nodup_map hkeys hv hw rfl)).2

theorem mem_orInsert : e ∈ (m.orInsert k v).entries ↔ e ∈ m.entries ∨ (e = (k, v) ∧ ∀ w, (k, w) ∉ m.entries) := by
  rw [orInsert]
  split_ifs with hany
  · obtain ⟨d, hd, hkey⟩ := any_eq_true.mp hany
    refine ⟨fun he => .inl he, fun he => he.resolve_right fun hnew => ?_⟩
    have hkey : d.1 = k := of_decide_eq_true hkey
    exact hnew.2 d.2 (hkey ▸ hd)
  · have hnone : ∀ w, (k, w) ∉ m.entries := by
      intro w hw
      exact hany (any_eq_true.mpr ⟨_, hw, decide_eq_true rfl⟩)
    rw [mem_insert]
    constructor
    · rintro (he | he)
      · exact .inr ⟨he, hnone⟩
      · exact .inl he.2
    · rintro (he | he)
      · refine .inr ⟨?_, he⟩
        rintro rfl
        exact hnone e.2 he
      · exact .inl he.1

variable {p : κ → Bool}

theorem mem_retain : e ∈ (m.retain p).entries ↔ e ∈ m.entries ∧ p e.1 = true := mem_filter

/-- The last entry of a key, in a list of entries. -/
def LastOf {α : Type} (l : List (α × ν)) (k : α) (v : ν) : Prop :=
  ∃ front back, l = front ++ (k, v) :: back ∧ ∀ d ∈ back, d.1 ≠ k

theorem LastOf.mem {α : Type} {l : List (α × ν)} {k : α} (h : LastOf l k v) : (k, v) ∈ l := by
  obtain ⟨front, back, rfl, -⟩ := h
  simp

theorem exists_lastOf {α : Type} {l : List (α × ν)} {k : α} (h : (k, v) ∈ l) : ∃ w, LastOf l k w := by
  induction l using reverseRecOn with
  | nil => cases h
  | append_singleton l e ih =>
    by_cases he : e.1 = k
    · exact ⟨e.2, l, [], by rw [← he], fun d hd => absurd hd not_mem_nil⟩
    · have hmem : (k, v) ∈ l := by
        rcases mem_append.mp h with hmem | hmem
        · exact hmem
        · exact absurd (congrArg Prod.fst (mem_singleton.mp hmem)).symm he
      obtain ⟨w, front, back, rfl, hback⟩ := ih hmem
      refine ⟨w, front, back ++ [e], by simp, fun d hd => ?_⟩
      rcases mem_append.mp hd with hd | hd
      · exact hback d hd
      · rwa [mem_singleton.mp hd]

theorem mem_ofList : e ∈ (ofList l).entries ↔ ∃ front back, l = front ++ e :: back ∧ ∀ d ∈ back, d.1 ≠ e.1 := by
  have hfold : ∀ (l : List (κ × ν)) (m : OrdMap κ ν),
      e ∈ (l.foldl (fun m e => m.insert e.1 e.2) m).entries ↔
        (∃ front back, l = front ++ e :: back ∧ ∀ d ∈ back, d.1 ≠ e.1) ∨ (e ∈ m.entries ∧ ∀ d ∈ l, d.1 ≠ e.1) := by
    intro l
    induction l with
    | nil => simp
    | cons c l ih =>
      intro m
      rw [foldl_cons, ih, mem_insert]
      constructor
      · rintro (⟨front, back, rfl, hback⟩ | ⟨rfl | ⟨hne, he⟩, hl⟩)
        · exact .inl ⟨c :: front, back, rfl, hback⟩
        · exact .inl ⟨[], l, rfl, hl⟩
        · refine .inr ⟨he, fun d hd => ?_⟩
          rcases mem_cons.mp hd with rfl | hd
          · exact hne.symm
          · exact hl d hd
      · rintro (⟨front, back, heq, hback⟩ | ⟨he, hl⟩)
        · cases front with
          | nil =>
            obtain ⟨rfl, rfl⟩ := cons.inj heq
            exact .inr ⟨.inl rfl, hback⟩
          | cons d front =>
            obtain ⟨rfl, rfl⟩ := cons.inj heq
            exact .inl ⟨front, back, rfl, hback⟩
        · exact .inr ⟨.inr ⟨(hl c mem_cons_self).symm, he⟩, fun d hd => hl d (mem_cons_of_mem c hd)⟩
  rw [ofList, hfold]
  simp [empty]

/-! ## Searching from the back -/

theorem findLast_eq_none_iff : m.findLast p = none ↔ ∀ e ∈ m.entries, p e.1 = false := by
  simp [findLast]

theorem findLast_eq_some_iff :
    m.findLast p = some e ↔ e ∈ m.entries ∧ p e.1 = true ∧ ∀ d ∈ m.entries, p d.1 = true → d.1 ≤ e.1 := by
  have hsorted := m.sorted
  rw [findLast, List.find?_eq_some_iff_append]
  constructor
  · rintro ⟨hp, back, front, heq, hback⟩
    have hentries : m.entries = front.reverse ++ e :: back.reverse := by
      rw [← reverse_reverse m.entries, heq]
      simp
    rw [hentries] at hsorted ⊢
    refine ⟨by simp, hp, fun d hd hpd => ?_⟩
    rcases mem_append.mp hd with hd | hd
    · exact ((pairwise_append.mp hsorted).2.2 d hd e mem_cons_self).le
    · rcases mem_cons.mp hd with rfl | hd
      · exact le_refl _
      · have hnot := hback d (mem_reverse.mp hd)
        simp [hpd] at hnot
  · rintro ⟨hmem, hp, hgreatest⟩
    obtain ⟨front, back, heq⟩ := append_of_mem hmem
    rw [heq] at hsorted hgreatest
    refine ⟨hp, back.reverse, front.reverse, by simp [heq], fun d hd => ?_⟩
    have hd := mem_reverse.mp hd
    have hlt := (pairwise_cons.mp (pairwise_append.mp hsorted).2.1).1 d hd
    rw [Bool.not_eq_true', Bool.eq_false_iff]
    intro hpd
    exact absurd (hgreatest d (by simp [hd]) hpd) (not_le.mpr hlt)

variable {q : κ → Bool}

theorem findLast_congr (h : ∀ e ∈ m.entries, p e.1 = q e.1) : m.findLast p = m.findLast q := by
  have hreverse : ∀ e ∈ m.entries.reverse, p e.1 = q e.1 := fun e he => h e (mem_reverse.mp he)
  rw [findLast, findLast]
  generalize m.entries.reverse = l at hreverse ⊢
  induction l with
  | nil => rfl
  | cons d l ih =>
    rw [List.find?_cons, List.find?_cons, hreverse d mem_cons_self,
      ih fun e he => hreverse e (mem_cons_of_mem d he)]

/-! ## Collecting under other keys -/

theorem mem_ofList_iff_lastOf : (k, v) ∈ (ofList l).entries ↔ LastOf l k v := mem_ofList

theorem mem_ofList_map {κ' : Type} [LinearOrder κ'] {f : κ → κ'} {k' : κ'} :
    (k', v) ∈ (ofList (m.entries.map fun e => (f e.1, e.2))).entries ↔
      ∃ k, f k = k' ∧ (k, v) ∈ m.entries ∧ ∀ d ∈ m.entries, f d.1 = k' → d.1 ≤ k := by
  have hsorted := m.sorted
  rw [mem_ofList]
  constructor
  · rintro ⟨front, back, heq, hback⟩
    obtain ⟨a, b, hsplit, rfl, hb⟩ := map_eq_append_iff.mp heq
    obtain ⟨e, b, rfl, he, rfl⟩ := map_eq_cons_iff.mp hb
    obtain ⟨hk, hv⟩ := Prod.mk.inj he
    subst hv
    refine ⟨e.1, hk, by simp [hsplit], fun d hd hdk => ?_⟩
    rw [hsplit] at hd hsorted
    rcases mem_append.mp hd with hd | hd
    · exact ((pairwise_append.mp hsorted).2.2 d hd e mem_cons_self).le
    · rcases mem_cons.mp hd with rfl | hd
      · exact le_refl _
      · exact absurd hdk (hback _ (mem_map_of_mem hd))
  · rintro ⟨k, rfl, hmem, hgreatest⟩
    obtain ⟨a, b, hsplit⟩ := append_of_mem hmem
    refine ⟨a.map fun e => (f e.1, e.2), b.map fun e => (f e.1, e.2), by rw [hsplit]; simp, ?_⟩
    intro d hd hdk
    obtain ⟨e, he, rfl⟩ := mem_map.mp hd
    rw [hsplit] at hgreatest hsorted
    have hle := hgreatest e (by simp [he]) hdk
    have hlt := (pairwise_cons.mp (pairwise_append.mp hsorted).2.1).1 e he
    exact absurd hle (not_le.mpr hlt)

end OrdMap
