import Dalaran.Base.Assoc
import Dalaran.Chunk.ListArray
import Dalaran.Chunk.Time

/-
  Chunks: rows of component cells of one entity, in columns (`dl_chunk::Chunk`).

  The data model of `chunk.rs` with the functions the store reads a chunk
  through: its row-id range, the time range of each component column, the
  row-id range of each component column, and the sanity check. The caches a
  chunk carries (`isSorted`, a time column's `isSorted` and `timeRange`) are
  fields as in the source; that they are right is what `sanityCheck` tests.

  The component map is keyed by the component identifier; the source's check
  that a column's descriptor names its key, and that its array is a list array
  and the row ids are row ids, hold by typing. `sizeBytes` is the measured size
  of the chunk (`total_size_bytes`), which no property here computes. Names are those
  of the source in camel case; a table of correspondence has what differs.
-/

namespace Dalaran

/-! ## Names -/

abbrev ChunkId := Nat

/-- Row ids are 128-bit TUIDs, ordered as integers. -/
abbrev RowId := Fin (2 ^ 128)

instance rowIds_neZero : NeZero (2 ^ 128) := ⟨by decide⟩

structure EntityPath where
  parts : List String
  deriving DecidableEq

structure TimelineName where
  name : String
  deriving DecidableEq

structure ComponentIdentifier where
  name : String
  deriving DecidableEq

inductive TimeType where
  | sequence
  | durationNs
  | timestampNs
  deriving DecidableEq

structure Timeline where
  name : TimelineName
  typ : TimeType
  deriving DecidableEq

/-! ## Columns -/

/-- The times of every row on one timeline, with the caches `isSorted` and `timeRange`. -/
structure TimeColumn where
  timeline : Timeline
  times : List I64
  isSorted : Bool
  timeRange : AbsoluteTimeRange

/-- `SerializedComponentColumn`: an archetype name out of the descriptor, and the cells. -/
structure ComponentColumn where
  archetype : Option String
  listArray : ListArray

abbrev ChunkComponents := Assoc ComponentIdentifier ComponentColumn

namespace TimeColumn

/-- `TimeColumn::new`: the range is read off the ends when the times are said to be sorted. -/
def new (isSorted : Option Bool) (timeline : Timeline) (times : List I64) : TimeColumn :=
  let isSorted := isSorted.getD (Seq.ascending times)
  let minTime := if isSorted then times.head? else times.min?
  let maxTime := if isSorted then times.getLast? else times.max?
  { timeline := timeline
    times := times
    isSorted := isSorted
    timeRange := AbsoluteTimeRange.new
      (minTime.elim TimeInt.MIN TimeInt.newTemporal) (maxTime.elim TimeInt.MAX TimeInt.newTemporal) }

/-- The range of one column's non-null rows. A column with a validity buffer and no valid row at
all gets the empty range, unless the buffer has no bits. -/
def componentTimeRange (tc : TimeColumn) (a : ListArray) : Option AbsoluteTimeRange :=
  if a.hasNulls then
    if a.validityIsEmpty then none
    else if a.nullCount = 0 then some tc.timeRange
    else
      let validTimes := Seq.select tc.times a.validity
      let timeMin := if Seq.ascending tc.times then validTimes.head? else validTimes.min?
      let timeMax := if Seq.ascending tc.times then validTimes.getLast? else validTimes.max?
      some (AbsoluteTimeRange.new
        (timeMin.elim TimeInt.MAX TimeInt.newTemporal) (timeMax.elim TimeInt.MIN TimeInt.newTemporal))
  else some tc.timeRange

def timeRangePerComponent (tc : TimeColumn) (components : ChunkComponents) :
    Assoc ComponentIdentifier AbsoluteTimeRange :=
  Assoc.filterMap components fun _ column => tc.componentTimeRange column.listArray

end TimeColumn

/-! ## Chunks -/

structure Chunk where
  id : ChunkId
  entityPath : EntityPath
  sizeBytes : Nat
  isSorted : Bool
  rowIds : List RowId
  timelines : Assoc TimelineName TimeColumn
  components : ChunkComponents

namespace Chunk

def numRows (c : Chunk) : Nat := c.rowIds.length

def isEmpty (c : Chunk) : Bool := c.rowIds.isEmpty

def isStatic (c : Chunk) : Bool := c.timelines.entries.isEmpty

/-- Whether every time column is sorted, by the cached flags. -/
def allTimelinesSorted (c : Chunk) : Bool := (Assoc.values c.timelines).all (·.isSorted)

/-- The row-id range of the chunk, `none` when it is empty. -/
def rowIdRange (c : Chunk) : Option (RowId × RowId) :=
  if c.isSorted then
    match c.rowIds.head?, c.rowIds.getLast? with
    | some first, some last => some (first, last)
    | _, _ => none
  else
    match c.rowIds.min?, c.rowIds.max? with
    | some first, some last => some (first, last)
    | _, _ => none

/-- The smallest row id, the key of the chunk in the store's RowId-ordered set. -/
def minRowId (c : Chunk) : Option RowId := c.rowIdRange.map (·.1)

def timeRangePerComponent (c : Chunk) : Assoc TimelineName (Assoc ComponentIdentifier AbsoluteTimeRange) :=
  Assoc.map c.timelines fun _ tc => tc.timeRangePerComponent c.components

/-- `row_id_range_per_component`, loop by loop: in the sorted branch neither loop stops at its
first hit, so the first component is the last non-null row id and the second one the first; in the
unsorted branch no row id is above the initial `RowId::MAX` or below the initial `RowId::ZERO`, so
the bounds stay as they are. -/
def rowIdRangeForComponent (c : Chunk) (a : ListArray) : Option (RowId × RowId) :=
  let rows := c.rowIds.zip a.validity
  if c.isSorted then
    let rowIdMin := rows.foldl (fun acc r => if r.2 then some r.1 else acc) none
    let rowIdMax := rows.reverse.foldl (fun acc r => if r.2 then some r.1 else acc) none
    match rowIdMin, rowIdMax with
    | some lo, some hi => some (lo, hi)
    | _, _ => none
  else
    let lo := rows.foldl (fun acc r => if r.2 && decide (r.1 > acc) then r.1 else acc) (Fin.last _)
    let hi := rows.reverse.foldl (fun acc r => if r.2 && decide (r.1 < acc) then r.1 else acc) 0
    some (lo, hi)

def rowIdRangePerComponent (c : Chunk) : Assoc ComponentIdentifier (RowId × RowId) :=
  Assoc.filterMap c.components fun _ column => c.rowIdRangeForComponent column.listArray

def numEventsCumulative (c : Chunk) : Nat :=
  ((Assoc.values c.components).map fun column =>
    if column.listArray.hasNulls then column.listArray.len - column.listArray.nullCount
    else column.listArray.len).sum

end Chunk

/-! ## The sanity check -/

/-- The ways a chunk can be malformed. -/
inductive Malformed where
  | chunkSortFlag (marked : Bool)
  | timelineLength (timeline : TimelineName) (rowIds times : Nat)
  | timeSortFlag (marked : Bool)
  | timeRangeNotTight
  | timeOutOfRange (time : I64)
  | staticTime
  | componentLength (component : ComponentIdentifier) (rowIds cells : Nat)
  | emptyColumn (component : ComponentIdentifier)

/-- `ChunkError`, as far as the store can meet it. -/
inductive ChunkError where
  | malformed (reason : Malformed)
  | notConcatenable

/-- The checks of a time column, the ones of debug builds included. -/
def TimeColumn.sanityCheck (tc : TimeColumn) : Except ChunkError Unit :=
  if tc.isSorted ≠ Seq.ascending tc.times then .error (.malformed (.timeSortFlag tc.isSorted))
  else if !tc.times.isEmpty &&
      !(tc.times.contains tc.timeRange.min.asI64 && tc.times.contains tc.timeRange.max.asI64) then
    .error (.malformed .timeRangeNotTight)
  else tc.times.forM fun time =>
    if time < tc.timeRange.min.asI64 ∨ tc.timeRange.max.asI64 < time then
      .error (.malformed (.timeOutOfRange time))
    else if time = TimeInt.STATIC.asI64 then .error (.malformed .staticTime)
    else .ok ()

def Chunk.checkTimeline (c : Chunk) (entry : TimelineName × TimeColumn) : Except ChunkError Unit :=
  if entry.2.times.length ≠ c.numRows then
    .error (.malformed (.timelineLength entry.1 c.numRows entry.2.times.length))
  else entry.2.sanityCheck

def Chunk.checkComponent (c : Chunk) (entry : ComponentIdentifier × ComponentColumn) : Except ChunkError Unit :=
  if entry.2.listArray.len ≠ c.numRows then
    .error (.malformed (.componentLength entry.1 c.numRows entry.2.listArray.len))
  else if !c.isEmpty && entry.2.listArray.validityIsEmpty then
    .error (.malformed (.emptyColumn entry.1))
  else .ok ()

/-- The checks of a chunk, the ones of debug builds included. -/
def Chunk.sanityCheck (c : Chunk) : Except ChunkError Unit :=
  if c.isSorted ≠ Seq.ascending c.rowIds then .error (.malformed (.chunkSortFlag c.isSorted))
  else do
    (Assoc.toList c.timelines).forM c.checkTimeline
    (Assoc.toList c.components).forM c.checkComponent

end Dalaran
