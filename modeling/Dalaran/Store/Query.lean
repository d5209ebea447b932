import Dalaran.Store.Gc

/-
  Relevancy queries (`query.rs`).

  A query looks ids up in the start map of an index entry. Since intervals
  overlap, the walk starts `max_interval_length` before the time it is about;
  that length is a `u64` and saturates when it is cast to an `i64`.

  A query that panics returns `none` (`ChunkTrackingMode::PanicOnMissing` with a
  missing chunk). The tracker of queried ids, which no query reads, is left out.
-/

namespace Dalaran

inductive ChunkTrackingMode where
  | ignore
  | report
  | reportTransient
  | panicOnMissing
  deriving DecidableEq

structure LatestAtQuery where
  timeline : Option TimelineName
  at_ : TimeInt

structure RangeQueryOptions where
  keepExtraTimelines : Bool
  keepExtraComponents : Bool
  includeExtendedBounds : Bool

structure RangeQuery where
  timeline : TimelineName
  range : AbsoluteTimeRange
  options : RangeQueryOptions

structure QueryResults where
  chunks : List Chunk
  missingVirtual : List ChunkId

/-- Sort ids into physical chunks and missing ones. -/
def QueryResults.fromChunkIds (st : ChunkStore) (mode : ChunkTrackingMode) (ids : List ChunkId) :
    Option QueryResults :=
  let missing := ids.filter fun id => !decide (st.IsPhysical id)
  if mode = .panicOnMissing ∧ missing ≠ [] then none
  else
    some
      { chunks := ids.filterMap st.physical
        missingVirtual := if mode = .report ∨ mode = .reportTransient then missing else [] }

namespace ChunkIdSetPerTime

def startTimes (s : ChunkIdSetPerTime) : List TimeInt := s.perStartTime.elems.map fun p => (ofLex p).1

/-- The last start at or before a time: `range(..=t).next_back()`. -/
def lastStartAt (s : ChunkIdSetPerTime) (t : TimeInt) : Option TimeInt :=
  (s.startTimes.filter fun u => decide (u ≤ t)).getLast?

def startsIn (s : ChunkIdSetPerTime) (lo hi : TimeInt) : List TimeAndId :=
  s.perStartTime.elems.filter fun p => decide (lo ≤ (ofLex p).1) && decide ((ofLex p).1 ≤ hi)

/-- The ids that may hold the latest row at a time: the starts within the longest interval before
the last start, latest start first, ids of one start ascending. -/
def latestAt (s : ChunkIdSetPerTime) (t : TimeInt) : Option (List ChunkId) :=
  (s.lastStartAt t).map fun upperBound =>
    let lowerBound := upperBound.asI64.saturatingSub (I64.ofLength s.maxIntervalLength)
    let starts := (s.startTimes.dedup.filter fun u => decide (u ≤ t)).reverse.takeWhile fun u =>
      decide (lowerBound ≤ u.asI64)
    starts.flatMap fun u => ChunkStore.idsAt s.perStartTime u

/-- The ids that may hold rows of a range. -/
def range (s : ChunkIdSetPerTime) (query : RangeQuery) : List ChunkId :=
  let queryMin :=
    if query.options.includeExtendedBounds then
      TimeInt.newTemporal (query.range.min.asI64.saturatingSub I64.ONE)
    else query.range.min
  let queryMax :=
    if query.options.includeExtendedBounds then
      TimeInt.newTemporal (query.range.max.asI64.saturatingAdd I64.ONE)
    else query.range.max
  let queryMin := TimeInt.newTemporal
    (queryMin.asI64.saturatingSub (I64.ofLength s.maxIntervalLength))
  let startTime := (s.lastStartAt queryMin).getD TimeInt.MIN
  let endTime := max startTime ((s.lastStartAt queryMax).getD startTime)
  (s.startsIn startTime endTime).map fun p => (ofLex p).2

end ChunkIdSetPerTime

namespace ChunkStore

def latestAtChunkIds (st : ChunkStore) (query : LatestAtQuery) (e : EntityPath)
    (component : ComponentIdentifier) : List ChunkId :=
  (query.timeline.bind fun timeline =>
    (st.temporalChunkIdsPerEntityPerComponent.lookup (e, timeline, component)).bind fun s =>
      s.latestAt query.at_).getD []

def latestAtRelevantChunks (st : ChunkStore) (mode : ChunkTrackingMode) (query : LatestAtQuery)
    (e : EntityPath) (component : ComponentIdentifier) : Option QueryResults :=
  match st.staticChunkIdsPerEntity.lookup (e, component) with
  | some id => QueryResults.fromChunkIds st mode [id]
  | none => QueryResults.fromChunkIds st mode (st.latestAtChunkIds query e component)

/-- The ids of a latest-at query about all components at once. -/
def latestAtChunkIdsForAllComponents (st : ChunkStore) (query : LatestAtQuery) (e : EntityPath)
    (includeStatic : Bool) : List ChunkId :=
  if includeStatic then
    let static := (Assoc.toList st.staticChunkIdsPerEntity).filter fun p => decide (p.1.1 = e)
    let temporal := (Assoc.toList st.temporalChunkIdsPerEntityPerComponent).filter fun p =>
      decide (p.1.1 = e) && decide (query.timeline = some p.1.2.1) &&
        (st.staticChunkIdsPerEntity.lookup (e, p.1.2.2)).isNone
    ((static.map fun p => p.2) ++ temporal.flatMap fun p => (p.2.latestAt query.at_).getD []).eraseDups
  else
    (query.timeline.bind fun timeline =>
      (st.temporalChunkIdsPerEntity.lookup (e, timeline)).bind fun s => s.latestAt query.at_).getD []

def latestAtRelevantChunksForAllComponents (st : ChunkStore) (mode : ChunkTrackingMode)
    (query : LatestAtQuery) (e : EntityPath) (includeStatic : Bool) : Option QueryResults :=
  QueryResults.fromChunkIds st mode (st.latestAtChunkIdsForAllComponents query e includeStatic)

/-- The post-filter of a range query: the component's range must meet the query's own range. -/
def componentIntersects (query : RangeQuery) (component : ComponentIdentifier) (c : Chunk) : Bool :=
  (c.timelines.lookup query.timeline).any fun tc =>
    ((tc.timeRangePerComponent c.components).lookup component).any fun r => r.intersects query.range

def rangeRelevantChunks (st : ChunkStore) (mode : ChunkTrackingMode) (query : RangeQuery)
    (e : EntityPath) (component : ComponentIdentifier) : Option QueryResults :=
  match st.staticChunkIdsPerEntity.lookup (e, component) with
  | some id => QueryResults.fromChunkIds st mode [id]
  | none =>
    let ids := (st.temporalChunkIdsPerEntityPerComponent.lookup (e, query.timeline, component)).elim []
      fun s => s.range query
    (QueryResults.fromChunkIds st mode ids).map fun results =>
      { results with chunks := results.chunks.filter (componentIntersects query component) }

/-- The ids of a range query about all components at once. -/
def rangeChunkIdsForAllComponents (st : ChunkStore) (query : RangeQuery) (e : EntityPath)
    (includeStatic : Bool) : List ChunkId :=
  if includeStatic then
    let static := (Assoc.toList st.staticChunkIdsPerEntity).filter fun p => decide (p.1.1 = e)
    let temporal := (Assoc.toList st.temporalChunkIdsPerEntityPerComponent).filter fun p =>
      decide (p.1.1 = e) && decide (query.timeline = p.1.2.1) &&
        (st.staticChunkIdsPerEntity.lookup (e, p.1.2.2)).isNone
    ((static.map fun p => p.2) ++ temporal.flatMap fun p => p.2.range query).eraseDups
  else
    (st.temporalChunkIdsPerEntity.lookup (e, query.timeline)).elim [] fun s => s.range query

/-- The post-filter of a range query about all components. -/
def timelineIntersects (query : RangeQuery) (includeStatic : Bool) (c : Chunk) : Bool :=
  (c.isStatic && includeStatic) ||
    (c.timelines.lookup query.timeline).any fun tc => tc.timeRange.intersects query.range

def rangeRelevantChunksForAllComponents (st : ChunkStore) (mode : ChunkTrackingMode)
    (query : RangeQuery) (e : EntityPath) (includeStatic : Bool) : Option QueryResults :=
  (QueryResults.fromChunkIds st mode (st.rangeChunkIdsForAllComponents query e includeStatic)).map
    fun results => { results with chunks := results.chunks.filter (timelineIntersects query includeStatic) }

end ChunkStore

end Dalaran
