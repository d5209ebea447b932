import Dalaran.Base.Grouping
import Dalaran.Chunk.Rows

/-
  Pending rows and the chunks they are turned into (`dl_chunk::batcher`).

  `PendingRow::many_into_chunks` sorts the rows by row id, groups them by a hash
  of their timeline names and then by a hash of their datatypes, and builds the
  columns of one chunk after the other, starting a new one when a timeline of the
  columns at hand is out of order and there are enough rows.

  A row's component map is keyed by the component identifier, which is that of
  the batch's descriptor wherever a row is built; the rest of the descriptor is
  its archetype name, as in `ComponentColumn`. The entries of a map stand in the
  order in which the source's map is traversed. The order in which a map of
  groups is traversed, the two hashes, the ids of new chunks and the size of a
  chunk are given (`Traversal`). An Arrow array is its datatype and its values.
  `arrow::compute::concat` refuses arrays of different datatypes; which others it
  fails on, such as dictionaries whose keys overflow, is given too. A component
  whose arrays it does not concatenate gets no column. `OffsetBuffer::from_lengths`
  panics when a list array has more values than its offsets can count.

  Correspondence (Rust ↔ Lean):
    `arrays_to_list_array`, `.._opt` ↔ `arraysToListArray`, `arraysToListArrayOpt`
    the loop over the rows of a group ↔ `PendingColumns`, `lookForUnsorted`, `pushRow`, `intoColumns`
-/

namespace Dalaran

/-! ## Rows -/

structure ArrowArray where
  dataType : String
  values : List Value
  deriving DecidableEq

structure SerializedComponentBatch where
  archetype : Option String
  array : ArrowArray

/-- A time on a timeline of some type, never the static one. -/
structure TimeCell where
  typ : TimeType
  value : I64
  nonMin : value ≠ I64.MIN

structure TimePoint where
  cells : Assoc TimelineName TimeCell
  sorted : cells.keys.Pairwise fun a b => a.name < b.name

def TimePoint.timelineNames (timepoint : TimePoint) : List TimelineName := timepoint.cells.keys

/-- One row's worth of data, a single log call. -/
structure PendingRow where
  rowId : RowId
  timepoint : TimePoint
  components : Assoc ComponentIdentifier SerializedComponentBatch

/-- The datatypes of a row's arrays, in the order of the map. -/
def PendingRow.datatypes (row : PendingRow) : List String :=
  (Assoc.values row.components).map (·.array.dataType)

def PendingRow.arrayOf (row : PendingRow) (component : ComponentIdentifier) : Option ArrowArray :=
  (row.components.lookup component).map (·.array)

/-! ## List arrays from arrays -/

/-- The offsets of a list array cannot count its values. -/
inductive OffsetOverflow where
  | offsetOverflow
  deriving DecidableEq

def I32_MAX : Nat := 2147483647

/-- All arrays one after the other; they must have one datatype, and can fail to be concatenated still. -/
def concatArrays (concatFails : List ArrowArray → Bool) : List ArrowArray → Option ArrowArray
  | [] => none
  | a :: arrays =>
    if (arrays.all fun b => decide (b.dataType = a.dataType)) && !concatFails (a :: arrays) then
      some ⟨a.dataType, (a :: arrays).flatMap (·.values)⟩
    else none

/-- `OffsetBuffer::from_lengths`: offsets are kept as the lengths they were made from. -/
def offsetsFromLengths (lengths : List Nat) : Except OffsetOverflow (List Nat) :=
  if I32_MAX < lengths.sum then .error .offsetOverflow else .ok lengths

def arraysToListArray (concatFails : List ArrowArray → Bool) (arrayDatatype : String)
    (arrays : List (Option ArrowArray)) : Except OffsetOverflow (Option ListArray) :=
  let arraysDense := arrays.filterMap id
  let data := if arraysDense.isEmpty then some ⟨arrayDatatype, []⟩ else concatArrays concatFails arraysDense
  match data with
  | none => .ok none
  | some data => do
    let offsets ← offsetsFromLengths (arrays.map fun a => a.elim 0 (·.values.length))
    pure (some
      { dataType := arrayDatatype
        hasNulls := true
        front := []
        entries := List.zipWith ListEntry.mk (arrays.map Option.isSome) (splitLengths offsets data.values)
        back := data.values.drop offsets.sum
        dense := by simp })

/-- The same with the datatype of the first array; `none` when there is none. -/
def arraysToListArrayOpt (concatFails : List ArrowArray → Bool) (arrays : List (Option ArrowArray)) :
    Except OffsetOverflow (Option ListArray) :=
  match arrays.filterMap id with
  | [] => .ok none
  | a :: _ => arraysToListArray concatFails a.dataType arrays

/-! ## Pending columns -/

structure PendingTimeColumn where
  timeline : Timeline
  times : List I64
  isSorted : Bool
  timeRange : AbsoluteTimeRange

namespace PendingTimeColumn

def new (timeline : Timeline) : PendingTimeColumn where
  timeline := timeline
  times := []
  isSorted := true
  timeRange := .EMPTY

def push (column : PendingTimeColumn) (time : TimeInt) : PendingTimeColumn where
  timeline := column.timeline
  times := column.times ++ [time.asI64]
  isSorted := column.isSorted && decide (column.times.getLast?.getD TimeInt.MIN.asI64 ≤ time.asI64)
  timeRange := ⟨(min column.timeRange.min time).saturatedTemporal, (max column.timeRange.max time).saturatedTemporal⟩

def finish (column : PendingTimeColumn) : TimeColumn where
  timeline := column.timeline
  times := column.times
  isSorted := column.isSorted
  timeRange := column.timeRange

end PendingTimeColumn

/-- The arrays of each component, row by row, with the archetype of the column. -/
abbrev PendingComponents := Assoc ComponentIdentifier (Option String × List (Option ArrowArray))

structure PendingColumns where
  rowIds : List RowId
  timelines : Assoc TimelineName PendingTimeColumn
  components : PendingComponents

/-- The components of all rows, each with the archetype it has first and no array yet. -/
def allComponents (rows : List PendingRow) : PendingComponents :=
  rows.foldl (fun all row => (Assoc.toList row.components).foldl
    (fun all e => Assoc.orInsert all e.1 (e.2.archetype, [])) all) ∅

namespace PendingColumns

/-- Look at one timeline of the next row: the columns at hand are full if there are enough rows and the
column of the timeline is out of order. -/
def lookForUnsorted (chunkMaxRowsIfUnsorted : UInt64) (all : PendingComponents)
    (s : PendingColumns × List PendingColumns) (e : TimelineName × TimeCell) : PendingColumns × List PendingColumns :=
  let column := (s.1.timelines.lookup e.1).getD (.new ⟨e.1, e.2.typ⟩)
  let columns := { s.1 with timelines := Assoc.orInsert s.1.timelines e.1 (.new ⟨e.1, e.2.typ⟩) }
  if !columns.rowIds.isEmpty && decide (chunkMaxRowsIfUnsorted.toNat ≤ columns.rowIds.length) && !column.isSorted then
    (⟨[], ∅, all⟩, s.2 ++ [columns])
  else (columns, s.2)

def pushRow (columns : PendingColumns) (row : PendingRow) : PendingColumns where
  rowIds := columns.rowIds ++ [row.rowId]
  timelines := Assoc.upsertAll columns.timelines (Assoc.toList row.timepoint.cells)
    (fun name cell => .new ⟨name, cell.typ⟩) (fun cell column => column.push ⟨cell.value⟩)
  components := Assoc.map columns.components fun component column => (column.1, column.2 ++ [row.arrayOf component])

/-- The columns of the chunks that the rows of one group make. -/
def intoColumns (chunkMaxRowsIfUnsorted : UInt64) (rows : List PendingRow) : List PendingColumns :=
  let all := allComponents rows
  let s := rows.foldl (fun s row =>
    let s := (Assoc.toList row.timepoint.cells).foldl (lookForUnsorted chunkMaxRowsIfUnsorted all) s
    (s.1.pushRow row, s.2)) (⟨[], ∅, all⟩, [])
  s.2 ++ [s.1]

/-- The component columns of a chunk; a component whose arrays make no list array has none. -/
def intoComponents (concatFails : List ArrowArray → Bool) (components : PendingComponents) :
    Except OffsetOverflow ChunkComponents :=
  (Assoc.toList components).foldlM (fun perComponent e => do
    match ← arraysToListArrayOpt concatFails e.2.2 with
    | some listArray => pure (perComponent.insert e.1 ⟨e.2.1, listArray⟩)
    | none => pure perComponent) ∅

end PendingColumns

/-! ## Many rows into chunks -/

/-- What the batcher is given: the hashes that rows are grouped by, the order in which a map of groups is
traversed, the arrays of one datatype that cannot be concatenated, the ids of new chunks, and the sizes of
chunks. -/
structure Traversal where
  timelineSet : List TimelineName → UInt64
  datatypeSet : List String → UInt64
  intoValues : Assoc UInt64 (List PendingRow) → List (List PendingRow)
  intoValues_perm : ∀ groups, (intoValues groups).Perm (Assoc.values groups)
  concatFails : List ArrowArray → Bool
  newChunkId : Nat → ChunkId
  sizeBytes : List RowId → Assoc TimelineName TimeColumn → ChunkComponents → Nat

def Chunk.fromNativeRowIds (T : Traversal) (id : ChunkId) (entityPath : EntityPath) (isSorted : Option Bool)
    (rowIds : List RowId) (timelines : Assoc TimelineName TimeColumn) (components : ChunkComponents) :
    Except ChunkError Chunk :=
  Chunk.new id entityPath (T.sizeBytes rowIds timelines components) isSorted rowIds timelines components

def PendingColumns.intoChunk (T : Traversal) (id : ChunkId) (entityPath : EntityPath) (columns : PendingColumns) :
    Except OffsetOverflow (Except ChunkError Chunk) := do
  let components ← intoComponents T.concatFails columns.components
  pure (Chunk.fromNativeRowIds T id entityPath (some true) columns.rowIds
    (Assoc.map columns.timelines fun _ column => column.finish) components)

/-- Rows in the order of their ids; rows of one id stay in order. -/
def PendingRow.sorted (rows : List PendingRow) : List PendingRow :=
  rows.mergeSort fun a b => decide (a.rowId ≤ b.rowId)

def PendingRow.manyIntoColumns (T : Traversal) (chunkMaxRowsIfUnsorted : UInt64) (rows : List PendingRow) :
    List PendingColumns :=
  let perTimelineSet := Assoc.groupInto (fun row => T.timelineSet row.timepoint.timelineNames) (sorted rows)
  (T.intoValues perTimelineSet).flatMap fun rows =>
    let perDatatypeSet := Assoc.groupInto (fun row => T.datatypeSet row.datatypes) rows
    (T.intoValues perDatatypeSet).flatMap (PendingColumns.intoColumns chunkMaxRowsIfUnsorted)

/-- The chunks of some rows of an entity. The first of them has the `n`-th new id. -/
def PendingRow.manyIntoChunks (T : Traversal) (n : Nat) (entityPath : EntityPath) (chunkMaxRowsIfUnsorted : UInt64)
    (rows : List PendingRow) : Except OffsetOverflow (List (Except ChunkError Chunk)) :=
  ((manyIntoColumns T chunkMaxRowsIfUnsorted rows).zipIdx n).mapM fun columns =>
    columns.1.intoChunk T (T.newChunkId columns.2) entityPath

end Dalaran
