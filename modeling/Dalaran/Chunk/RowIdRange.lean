import Mathlib.Order.Bounds.Basic
import Dalaran.Chunk.Rows

/-
  The row-id range of a component column, and what it should be.

  `Chunk::row_id_range_per_component` means to report the least and the greatest
  row id over the non-null rows of each component. In the sorted branch neither
  loop stops at its first hit, so the pair is (last, first) rather than (first,
  last); in the unsorted branch the bounds start at the wrong ends and are
  compared the wrong way, so no row moves them.
-/

namespace Dalaran

open List Option Bool

/-! ## The row ids of a component -/

namespace Chunk

variable {c : Chunk} {k : ComponentIdentifier} {r : RowId}

def HasCell (c : Chunk) (k : ComponentIdentifier) (r : RowId) : Prop :=
  ∃ row ∈ c.rows, row.rowId = r ∧ (row.cells k).isSome

/-- The row ids of the non-null rows of a component, in order. -/
def cellRowIds (c : Chunk) (k : ComponentIdentifier) : List RowId :=
  (c.components.lookup k).elim [] fun column => Seq.select c.rowIds column.listArray.validity

theorem mem_cellRowIds : r ∈ c.cellRowIds k ↔ c.HasCell k r := by
  have hcell : ∀ i, (c.cellAt i k).isSome ∧ c.rowIds[i]? = some r ↔
      ∃ row, c.rows[i]? = some row ∧ row.rowId = r ∧ (row.cells k).isSome := by
    intro i
    simp only [rows_getElem?, map_eq_some_iff]
    constructor
    · rintro ⟨h1, h2⟩
      exact ⟨_, ⟨r, h2, rfl⟩, rfl, h1⟩
    · rintro ⟨row, ⟨r', h2, rfl⟩, rfl, h1⟩
      exact ⟨h1, h2⟩
  have hrow : c.HasCell k r ↔ ∃ i, (c.cellAt i k).isSome ∧ c.rowIds[i]? = some r := by
    simp only [hcell]
    constructor
    · rintro ⟨row, hmem, h⟩
      obtain ⟨i, hi⟩ := mem_iff_getElem?.mp hmem
      exact ⟨i, row, hi, h⟩
    · rintro ⟨i, row, hi, h⟩
      exact ⟨row, mem_iff_getElem?.mpr ⟨i, hi⟩, h⟩
  rw [hrow]
  unfold cellRowIds
  simp only [cellAt_isSome_iff]
  cases c.components.lookup k with
  | none => simp
  | some column =>
    simp only [elim_some, Seq.mem_select, Option.some.injEq, exists_eq_left']
    exact exists_congr fun i => and_comm

theorem foldl_last_hit (rows : List (RowId × Bool)) (acc : Option RowId) :
    rows.foldl (fun acc r => if r.2 then some r.1 else acc) acc =
      (((rows.filter (·.2)).map (·.1)).getLast?).or acc := by
  induction rows generalizing acc with
  | nil => rfl
  | cons row rows ih =>
    rw [foldl_cons, ih]
    cases hrow : row.2 with
    | false => simp [hrow]
    | true =>
      simp only [hrow, filter_cons, if_true, map_cons, List.getLast?_cons]
      cases (List.map Prod.fst (List.filter (fun x => x.2) rows)).getLast? <;> rfl

theorem rowIdRangePerComponent_lookup_of_sorted (hs : c.isSorted = true) (k : ComponentIdentifier) :
    c.rowIdRangePerComponent.lookup k =
      (c.cellRowIds k).getLast?.bind fun last => (c.cellRowIds k).head?.map fun first => (last, first) := by
  unfold rowIdRangePerComponent cellRowIds
  rw [Assoc.lookup_filterMap]
  cases c.components.lookup k with
  | none => rfl
  | some column =>
    simp only [bind_some, elim_some, rowIdRangeForComponent, hs, if_true,
      foldl_last_hit, filter_reverse, map_reverse, List.getLast?_reverse, or_none]
    have hselect : Seq.select c.rowIds column.listArray.validity =
      (((c.rowIds.zip column.listArray.validity).filter fun p => p.2).map fun p => p.1) := rfl
    rw [← hselect]
    cases (Seq.select c.rowIds column.listArray.validity).getLast? with
    | none => rfl
    | some last => cases (Seq.select c.rowIds column.listArray.validity).head? <;> rfl

theorem rowIdRangePerComponent_of_sorted (hs : c.isSorted = true) (k : ComponentIdentifier) :
    (c.rowIdRangePerComponent.lookup k).map (·.2) = (c.cellRowIds k).head? := by
  rw [rowIdRangePerComponent_lookup_of_sorted hs]
  cases c.cellRowIds k with
  | nil => rfl
  | cons first rest =>
    rfl

theorem foldl_above_last (rows : List (RowId × Bool)) :
    rows.foldl (fun acc r => if r.2 && decide (r.1 > acc) then r.1 else acc) (Fin.last _) = Fin.last _ := by
  induction rows with
  | nil => rfl
  | cons row rows ih =>
    have hnot : ¬ row.1 > Fin.last _ := not_lt.mpr (Fin.le_last row.1)
    simp only [foldl_cons, hnot, decide_false, Bool.and_false, false_eq_true, if_false, ih]

theorem foldl_below_zero (rows : List (RowId × Bool)) :
    rows.foldl (fun acc r => if r.2 && decide (r.1 < acc) then r.1 else acc) 0 = 0 := by
  induction rows with
  | nil => rfl
  | cons row rows ih =>
    have hnot : ¬ row.1 < 0 := not_lt.mpr (Fin.zero_le row.1)
    simp only [foldl_cons, hnot, decide_false, Bool.and_false, false_eq_true, if_false, ih]

theorem rowIdRangePerComponent_lookup_of_unsorted (hs : c.isSorted = false) (k : ComponentIdentifier) :
    c.rowIdRangePerComponent.lookup k = (c.components.lookup k).map fun _ => (Fin.last _, 0) := by
  unfold rowIdRangePerComponent
  rw [Assoc.lookup_filterMap]
  cases c.components.lookup k with
  | none => rfl
  | some column =>
    simp only [bind_some, map_some, rowIdRangeForComponent, hs, false_eq_true,
      if_false, foldl_above_last, foldl_below_zero]

/-! ## When the ranges are right -/

/-- The pair reported for a component is the least and the greatest row id over its non-null rows,
and a component that is not reported has no non-null row. -/
def RowIdRangesCorrect (c : Chunk) : Prop :=
  ∀ k, (∀ lo hi, c.rowIdRangePerComponent.lookup k = some (lo, hi) →
      IsLeast {r | c.HasCell k r} lo ∧ IsGreatest {r | c.HasCell k r} hi) ∧
    (c.rowIdRangePerComponent.lookup k = none → ∀ r, ¬ c.HasCell k r)

/-- The two branches report the same ranges on the columns of this chunk. -/
def RowIdRangeBranchesAgree (c : Chunk) : Prop :=
  ∀ k, ({ c with isSorted := true }).rowIdRangePerComponent.lookup k =
    ({ c with isSorted := false }).rowIdRangePerComponent.lookup k

def OneRowIdPerComponent (c : Chunk) : Prop :=
  ∀ k r r', c.HasCell k r → c.HasCell k r' → r = r'

theorem not_hasCell_of_lookup_none (h : c.components.lookup k = none) : ¬ c.HasCell k r := by
  rw [← mem_cellRowIds]
  simp [cellRowIds, h]

theorem cellRowIds_eq_nil_iff : c.cellRowIds k = [] ↔ ∀ r, ¬ c.HasCell k r := by
  simp only [eq_nil_iff_forall_not_mem, mem_cellRowIds]

theorem not_isLeast_last_isGreatest_zero {s : Set RowId} (h₁ : IsLeast s (Fin.last _))
    (h₂ : IsGreatest s 0) : False := by
  have hle : Fin.last _ ≤ (0 : RowId) := h₂.2 h₁.1
  exact absurd hle (by decide)

theorem rowIdRangesCorrect_iff_of_unsorted (hs : c.isSorted = false) :
    c.RowIdRangesCorrect ↔ ∀ k, c.components.lookup k = none := by
  constructor
  · intro h k
    by_contra hk
    obtain ⟨column, hcol⟩ := ne_none_iff_exists'.mp hk
    have hlook : c.rowIdRangePerComponent.lookup k = some (Fin.last _, 0) := by
      rw [rowIdRangePerComponent_lookup_of_unsorted hs, hcol, map_some]
    obtain ⟨hleast, hgreatest⟩ := (h k).1 _ _ hlook
    exact not_isLeast_last_isGreatest_zero hleast hgreatest
  · intro h k
    have hlook : c.rowIdRangePerComponent.lookup k = none := by
      rw [rowIdRangePerComponent_lookup_of_unsorted hs, h k, map_none]
    refine ⟨fun lo hi hr => ?_, fun _ r => not_hasCell_of_lookup_none (h k)⟩
    rw [hlook] at hr
    exact absurd hr (by simp)

theorem rowIdRangesCorrect_iff_of_sorted (hwf : c.WellFormed) (hs : c.isSorted = true) :
    c.RowIdRangesCorrect ↔ c.OneRowIdPerComponent := by
  constructor
  · intro h k r r' hr hr'
    cases hl : c.rowIdRangePerComponent.lookup k with
    | none => exact absurd hr ((h k).2 hl r)
    | some pair =>
      obtain ⟨hleast, hgreatest⟩ := (h k).1 _ _ hl
      -- the pair is (last, first), and the rows ascend
      rw [rowIdRangePerComponent_lookup_of_sorted hs] at hl
      obtain ⟨last, hlast, hl⟩ := bind_eq_some_iff.mp hl
      obtain ⟨first, hfirst, hpair⟩ := map_eq_some_iff.mp hl
      subst hpair
      have hasc : Seq.ascending (c.cellRowIds k) = true := by
        unfold cellRowIds
        cases c.components.lookup k with
        | none => rfl
        | some column => exact Seq.ascending_select _ (hwf.isSorted_eq.symm.trans hs)
      have hle : first ≤ last := Seq.head?_le_of_ascending hasc hfirst (mem_of_getLast? hlast)
      have hall : ∀ x, c.HasCell k x → x = last := fun x hx =>
        le_antisymm ((hgreatest.2 hx).trans hle) (hleast.2 hx)
      rw [hall r hr, hall r' hr']
  · intro h k
    rw [rowIdRangePerComponent_lookup_of_sorted hs]
    refine ⟨fun lo hi hr => ?_, fun hr => ?_⟩
    · obtain ⟨last, hlast, hr⟩ := bind_eq_some_iff.mp hr
      obtain ⟨first, hfirst, hpair⟩ := map_eq_some_iff.mp hr
      obtain ⟨rfl, rfl⟩ := Prod.mk.inj hpair
      have hcell : c.HasCell k last := mem_cellRowIds.mp (mem_of_getLast? hlast)
      have hcell' : c.HasCell k first := mem_cellRowIds.mp (mem_of_head? hfirst)
      exact ⟨⟨hcell, fun r hr => (h k _ _ hcell hr).le⟩, ⟨hcell', fun r hr => (h k _ _ hr hcell').le⟩⟩
    · apply cellRowIds_eq_nil_iff.mp
      cases hids : c.cellRowIds k with
      | nil => rfl
      | cons first rest =>
        rw [hids, List.getLast?_cons] at hr
        exact absurd hr (by simp)

theorem lookup_none_of_branchesAgree (hs : c.isSorted = true) (hcorrect : c.RowIdRangesCorrect)
    (hagree : c.RowIdRangeBranchesAgree) (k : ComponentIdentifier) : c.components.lookup k = none := by
  by_contra hk
  obtain ⟨column, hcol⟩ := ne_none_iff_exists'.mp hk
  have hself : { c with isSorted := true } = c := by
    rw [← hs]
  have hlook : c.rowIdRangePerComponent.lookup k = some (Fin.last _, 0) := by
    have h := hagree k
    rw [hself, rowIdRangePerComponent_lookup_of_unsorted (c := { c with isSorted := false }) rfl] at h
    rw [h]
    show (c.components.lookup k).map _ = _
    rw [hcol, map_some]
  obtain ⟨hleast, hgreatest⟩ := (hcorrect k).1 _ _ hlook
  exact not_isLeast_last_isGreatest_zero hleast hgreatest

theorem branchesAgree_of_no_components (h : ∀ k, c.components.lookup k = none) : c.RowIdRangeBranchesAgree := by
  intro k
  have hnil : ({ c with isSorted := true } : Chunk).cellRowIds k = [] :=
    cellRowIds_eq_nil_iff.mpr fun _ => not_hasCell_of_lookup_none (h k)
  rw [rowIdRangePerComponent_lookup_of_sorted rfl, rowIdRangePerComponent_lookup_of_unsorted rfl, hnil]
  show none = (c.components.lookup k).map _
  rw [h k, map_none]

/-- The ranges of a valid chunk are right exactly where it has no component column, or is sorted
with one row id per component; the branches also agree only where it has no component column. -/
theorem rowIdRangePerComponent_correct_iff (c : ValidChunk) :
    (c.toChunk.RowIdRangesCorrect ↔ (∀ k, c.components.lookup k = none) ∨
      c.isSorted = true ∧ c.toChunk.OneRowIdPerComponent) ∧
    (c.toChunk.RowIdRangesCorrect ∧ c.toChunk.RowIdRangeBranchesAgree ↔ ∀ k, c.components.lookup k = none) := by
  have hvacuous : (∀ k, c.components.lookup k = none) → c.toChunk.OneRowIdPerComponent :=
    fun h k r r' hr => absurd hr (not_hasCell_of_lookup_none (h k))
  cases hs : c.isSorted with
  | true =>
    have hiff := rowIdRangesCorrect_iff_of_sorted c.wf hs
    refine ⟨?_, ?_, ?_⟩
    · rw [hiff]
      refine ⟨fun h => .inr ⟨rfl, h⟩, ?_⟩
      rintro (h | ⟨-, h⟩)
      · exact hvacuous h
      · exact h
    · exact fun ⟨hcorrect, hagree⟩ => lookup_none_of_branchesAgree hs hcorrect hagree
    · exact fun h => ⟨hiff.mpr (hvacuous h), branchesAgree_of_no_components h⟩
  | false =>
    have hiff := rowIdRangesCorrect_iff_of_unsorted hs
    refine ⟨?_, ?_, ?_⟩
    · rw [hiff]
      refine ⟨.inl, ?_⟩
      rintro (h | ⟨h, -⟩)
      · exact h
      · exact absurd h Bool.false_ne_true
    · exact fun h => hiff.mp h.1
    · exact fun h => ⟨hiff.mpr h, branchesAgree_of_no_components h⟩

def twoRowChunk : ValidChunk where
  toChunk := ofColumns 1 ⟨["points"]⟩ 64 [1, 2] [] [(⟨"color"⟩, [some [[0]], some [[1]]])]
  sane := rfl

/-- On that chunk the range comes out as (2, 1): the greater row id is called the minimum. -/
theorem rowIdRangePerComponent_inverted :
    twoRowChunk.isSorted = true ∧ twoRowChunk.rowIdRangePerComponent.lookup ⟨"color"⟩ = some (2, 1) ∧
      twoRowChunk.toChunk.HasCell ⟨"color"⟩ 1 ∧ twoRowChunk.toChunk.HasCell ⟨"color"⟩ 2 ∧
      ¬ (∀ c : ValidChunk, c.toChunk.RowIdRangesCorrect ∧ c.toChunk.RowIdRangeBranchesAgree) := by
  have hlook : twoRowChunk.rowIdRangePerComponent.lookup ⟨"color"⟩ = some (2, 1) := by decide
  have hone : twoRowChunk.toChunk.HasCell ⟨"color"⟩ 1 := mem_cellRowIds.mp (by decide)
  have htwo : twoRowChunk.toChunk.HasCell ⟨"color"⟩ 2 := mem_cellRowIds.mp (by decide)
  refine ⟨by decide, hlook, hone, htwo, fun h => ?_⟩
  obtain ⟨hleast, -⟩ := ((h twoRowChunk).1 ⟨"color"⟩).1 _ _ hlook
  exact absurd (hleast.2 hone) (by decide)

end Chunk

end Dalaran
