import Dalaran.Chunk.WellFormed

/-
  The rows of a chunk: what its columns say, row by row.

  `Chunk.rows` is the meaning of a chunk. A null cell and an absent column read the
  same in a row, so padding a column with nulls changes no row. A row keeps the
  entity path of its chunk.
-/

namespace Dalaran

open List Option

@[ext] structure Row where
  entityPath : EntityPath
  rowId : RowId
  times : TimelineName → Option I64
  cells : ComponentIdentifier → Option Cell

namespace Chunk

def timeAt (c : Chunk) (i : Nat) (timeline : TimelineName) : Option I64 :=
  (c.timelines.lookup timeline).bind (·.times[i]?)

def cellAt (c : Chunk) (i : Nat) (component : ComponentIdentifier) : Option Cell :=
  (c.components.lookup component).bind fun column => (column.listArray.cells[i]?).join

def rowAt (c : Chunk) (i : Nat) (rowId : RowId) : Row :=
  ⟨c.entityPath, rowId, c.timeAt i, c.cellAt i⟩

def rows (c : Chunk) : List Row := c.rowIds.mapIdx c.rowAt

theorem rows_getElem? (c : Chunk) (i : Nat) : c.rows[i]? = (c.rowIds[i]?).map (c.rowAt i) :=
  getElem?_mapIdx

@[simp] theorem rows_length (c : Chunk) : c.rows.length = c.numRows := length_mapIdx

theorem rows_map_rowId (c : Chunk) : c.rows.map (·.rowId) = c.rowIds := by
  apply ext_getElem?
  intro i
  rw [getElem?_map, rows_getElem?, Option.map_map]
  cases c.rowIds[i]? <;> rfl

/-- Every component column is packed. -/
def Packed (c : Chunk) : Prop :=
  ∀ component column, c.components.lookup component = some column → column.listArray.Packed

instance packedDecidable (c : Chunk) : Decidable c.Packed :=
  decidable_of_iff (∀ column ∈ Assoc.values c.components, column.listArray.Packed) <| by
    simp only [Assoc.mem_values, Packed, forall_exists_index]
    exact forall_comm

variable {timeline : TimelineName} {c : Chunk}

theorem rows_map_times {tc : TimeColumn} (hwf : c.WellFormed)
    (htc : c.timelines.lookup timeline = some tc) : c.rows.map (·.times timeline) = tc.times.map some := by
  have hlen : tc.times.length = c.rowIds.length := hwf.times_length _ _ htc
  apply ext_getElem?
  intro i
  rw [getElem?_map, getElem?_map, rows_getElem?, Option.map_map]
  by_cases hi : i < c.rowIds.length
  · rw [getElem?_eq_getElem hi, getElem?_eq_getElem (by omega)]
    show some (c.timeAt i timeline) = _
    rw [timeAt, htc, bind_some, getElem?_eq_getElem (by omega)]
    rfl
  · rw [getElem?_eq_none (by omega), getElem?_eq_none (by omega)]
    rfl

/-! ## Non-null rows of a component -/

def componentRange (c : Chunk) (timeline : TimelineName) (component : ComponentIdentifier) :
    Option AbsoluteTimeRange :=
  (c.timelines.lookup timeline).bind fun tc =>
    (c.components.lookup component).bind fun column => tc.componentTimeRange column.listArray

def HasCellAt (c : Chunk) (timeline : TimelineName) (component : ComponentIdentifier) (i : Nat)
    (t : I64) : Prop :=
  c.timeAt i timeline = some t ∧ (c.cellAt i component).isSome

variable {component : ComponentIdentifier}

theorem cellAt_isSome_iff {i : Nat} :
    (c.cellAt i component).isSome ↔
      ∃ column, c.components.lookup component = some column ∧ column.listArray.validity[i]? = some true := by
  unfold cellAt
  cases c.components.lookup component with
  | none => simp
  | some column =>
    simp only [bind_some, Option.some.injEq, exists_eq_left', ListArray.validity_eq_cells, getElem?_map]
    cases column.listArray.cells[i]? with
    | none => simp
    | some o => cases o <;> simp

theorem mem_nonNullTimes_iff {tc : TimeColumn} {column : ComponentColumn} {t : I64}
    (htc : c.timelines.lookup timeline = some tc) (hcol : c.components.lookup component = some column) :
    t ∈ tc.nonNullTimes column.listArray ↔ ∃ i, c.HasCellAt timeline component i t := by
  unfold TimeColumn.nonNullTimes
  rw [Seq.mem_select]
  refine exists_congr fun i => ?_
  unfold HasCellAt timeAt
  rw [cellAt_isSome_iff, htc]
  simp [hcol]

theorem componentRange_tight (hwf : c.WellFormed) {i : Nat} {t : I64}
    (h : c.HasCellAt timeline component i t) :
    ∃ lo hi, c.componentRange timeline component = some ⟨⟨lo⟩, ⟨hi⟩⟩ ∧
      (∃ i, c.HasCellAt timeline component i lo) ∧ (∃ i, c.HasCellAt timeline component i hi) ∧
      ∀ i t, c.HasCellAt timeline component i t → lo ≤ t ∧ t ≤ hi := by
  obtain ⟨ht, hcell⟩ := h
  obtain ⟨column, hcol, hvalid⟩ := cellAt_isSome_iff.mp hcell
  obtain ⟨tc, htc, htime⟩ := bind_eq_some_iff.mp ht
  have hmem : t ∈ tc.nonNullTimes column.listArray :=
    (mem_nonNullTimes_iff htc hcol).mpr ⟨i, ht, hcell⟩
  have hlen : tc.times.length = column.listArray.len :=
    (hwf.times_length _ _ htc).trans (hwf.cells_length _ _ hcol).symm
  obtain ⟨lo, hi, hrange, hlo, hhi, hall⟩ :=
    TimeColumn.componentTimeRange_tight (hwf.times_wf _ _ htc) hlen (ne_nil_of_mem hmem)
  refine ⟨lo, hi, ?_, (mem_nonNullTimes_iff htc hcol).mp hlo, (mem_nonNullTimes_iff htc hcol).mp hhi,
    fun j s hs => hall s ((mem_nonNullTimes_iff htc hcol).mpr ⟨j, hs⟩)⟩
  unfold componentRange
  rw [htc, bind_some, hcol, bind_some, hrange]

theorem componentRange_of_all_null (hwf : c.WellFormed) (hne : c.rowIds ≠ []) {tc : TimeColumn}
    {column : ComponentColumn} (htc : c.timelines.lookup timeline = some tc)
    (hcol : c.components.lookup component = some column) (hnull : ¬ ∃ i t, c.HasCellAt timeline component i t) :
    c.componentRange timeline component = some AbsoluteTimeRange.EMPTY := by
  have hlen : column.listArray.len = c.numRows := hwf.cells_length _ _ hcol
  have hpos : column.listArray.len ≠ 0 := by
    rw [hlen]
    exact fun h => hne (length_eq_zero_iff.mp h)
  have hnil : tc.nonNullTimes column.listArray = [] := by
    refine eq_nil_iff_forall_not_mem.mpr fun t ht => hnull ?_
    obtain ⟨i, hi⟩ := (mem_nonNullTimes_iff htc hcol).mp ht
    exact ⟨i, t, hi⟩
  unfold componentRange
  rw [htc, bind_some, hcol, bind_some,
    TimeColumn.componentTimeRange_of_all_null ((hwf.times_length _ _ htc).trans hlen.symm) hpos hnil]

theorem timeRangePerComponent_lookup (c : Chunk) (timeline : TimelineName)
    (component : ComponentIdentifier) :
    (c.timeRangePerComponent.lookup timeline).bind (AList.lookup component) =
      c.componentRange timeline component := by
  unfold timeRangePerComponent componentRange
  rw [Assoc.lookup_map]
  cases c.timelines.lookup timeline with
  | none => rfl
  | some tc => exact Assoc.lookup_filterMap c.components _ component

/-! ## Chunks from plain columns -/

/-- A chunk out of row ids, sequence timelines and cells, with packed columns and caches computed. -/
def ofColumns (id : ChunkId) (entityPath : EntityPath) (sizeBytes : Nat) (rowIds : List RowId)
    (timelines : List (TimelineName × List I64))
    (components : List (ComponentIdentifier × List (Option Cell))) : Chunk where
  id := id
  entityPath := entityPath
  sizeBytes := sizeBytes
  isSorted := Seq.ascending rowIds
  rowIds := rowIds
  timelines := Assoc.ofList (timelines.map fun e => (e.1, TimeColumn.new none ⟨e.1, .sequence⟩ e.2))
  components := Assoc.ofList (components.map fun e => (e.1, ⟨none, ListArray.ofCells e.2⟩))

end Chunk

end Dalaran
