import Mathlib.Data.List.Infix
import Dalaran.Base.Scan
import Dalaran.Store.EventBalance

/-
  The query cache (`dl_query/src/cache.rs`, `latest_at.rs`), its latest-at part.

  A cache holds, for one entity, timeline and component, the rows that queries
  selected, by query time and by the time of the row. The events of the store
  leave the times they touch in the cache, and the next query forgets the entries
  from the smallest of them on. A query about several components first looks for
  the most recent tombstone on the entity and its ancestors.

  A unit chunk is the chunk it was cut from and the row. Whether a cell
  deserializes to `ClearIsRecursive(true)` is a parameter, and so is the entry a
  collection starts keeping from, which the source computes in `f32`. A query
  that panics returns `none`. Left out: the range caches, and the tracker of the
  chunks in use.

  Correspondence (Rust ↔ Lean):
    `CompactedEvents` ↔ `staticComponents`, `temporalLatestAt`
-/

namespace Dalaran

/-! ## Units -/

structure UnitChunkShared where
  chunk : Chunk
  row : Nat

namespace UnitChunkShared

def index (unit : UnitChunkShared) (timeline : Option TimelineName) : Option (TimeInt ×ₗ RowId) :=
  unit.chunk.unitIndex timeline unit.row

def cell (unit : UnitChunkShared) (component : ComponentIdentifier) : Option Cell :=
  unit.chunk.cellAt unit.row component

end UnitChunkShared

/-- The unit a query selects in a chunk, with its index. -/
def Chunk.latestUnit (query : LatestAtQuery) (component : ComponentIdentifier) (c : Chunk) :
    Option ((TimeInt ×ₗ RowId) × UnitChunkShared) :=
  (c.latestAt query component).bind fun i =>
    (c.unitIndex query.timeline i).map fun index => (index, ⟨c, i⟩)

/-! ## One key -/

structure QueryCacheKey where
  entityPath : EntityPath
  timelineName : Option TimelineName
  component : ComponentIdentifier
  deriving DecidableEq

structure LatestAtCachedChunk where
  unit : UnitChunkShared
  isReference : Bool

structure LatestAtCache where
  perQueryTime : Assoc TimeInt LatestAtCachedChunk
  pendingInvalidations : OrdSet TimeInt

namespace LatestAtCache

def new : LatestAtCache := ⟨∅, OrdSet.empty⟩

def orInsert (cache : LatestAtCache) (time : TimeInt) (cached : LatestAtCachedChunk) : LatestAtCache :=
  match cache.perQueryTime.lookup time with
  | some _ => cache
  | none => { cache with perQueryTime := AList.insert time cached cache.perQueryTime }

/-- The cached row of a query, or the one the store selects. A missing chunk gives the query up. -/
def latestAt (cache : LatestAtCache) (mode : ChunkTrackingMode) (st : ChunkStore) (query : LatestAtQuery)
    (e : EntityPath) (component : ComponentIdentifier) :
    Option (LatestAtCache × Option UnitChunkShared × List ChunkId) :=
  match cache.perQueryTime.lookup query.at_ with
  | some cached => some (cache, some cached.unit, [])
  | none =>
    (st.latestAtRelevantChunks mode query e component).map fun results =>
      if results.missingVirtual ≠ [] then (cache, none, results.missingVirtual)
      else
        match Seq.maxByKey (fun selected => selected.1)
            (results.chunks.filterMap (Chunk.latestUnit query component)) with
        | none => (cache, none, [])
        | some (index, unit) =>
          let dataTime := (ofLex index).1
          let cached := (cache.perQueryTime.lookup dataTime).getD ⟨unit, false⟩
          let cache := cache.orInsert dataTime ⟨unit, false⟩
          let cache :=
            if query.at_ ≠ dataTime ∧ dataTime ≠ TimeInt.STATIC then
              cache.orInsert query.at_ ⟨cached.unit, true⟩
            else cache
          (cache, some cached.unit, [])

/-- Forget the entries from the oldest invalidated time on. An invalidation stays pending where an
entry of its own was there to forget. -/
def handlePendingInvalidation (cache : LatestAtCache) : LatestAtCache :=
  match cache.pendingInvalidations.elems.head? with
  | none => cache
  | some oldest =>
    let discarded := fun time => decide (oldest ≤ time)
    { perQueryTime := Assoc.filterMap cache.perQueryTime fun time cached =>
        if discarded time then none else some cached
      pendingInvalidations :=
        ⟨cache.pendingInvalidations.elems.filter fun time =>
            (cache.perQueryTime.lookup time).any fun cached => discarded time && !cached.isReference,
          cache.pendingInvalidations.sorted.filter _⟩ }

def invalidate (cache : LatestAtCache) (time : TimeInt) : LatestAtCache :=
  { cache with pendingInvalidations := cache.pendingInvalidations.insert time }

/-- Keep the entries from the `n`-th query time on, if there is one. -/
def splitOff (cache : LatestAtCache) (n : Nat) : LatestAtCache :=
  match (cache.perQueryTime.keys.insertionSort fun a b => a ≤ b)[n]? with
  | none => cache
  | some time =>
    { cache with perQueryTime := Assoc.filterMap cache.perQueryTime fun t cached =>
        if time ≤ t then some cached else none }

end LatestAtCache

/-! ## Events -/

def clearIsRecursive : ComponentIdentifier := ⟨"Clear:is_recursive"⟩

namespace ChunkStoreDiff

def staticComponents : ChunkStoreDiff → List (EntityPath × ComponentIdentifier)
  | .virtualAddition manifest => (Assoc.toList manifest.staticMap).map fun p => p.1
  | .addition before after _ =>
    if before.isStatic then after.components.keys.map fun component => (after.entityPath, component)
    else []
  | .deletion del =>
    if del.chunk.isStatic then
      del.chunk.components.keys.map fun component => (del.chunk.entityPath, component)
    else []

def latestAtRanges : ChunkStoreDiff → List ((EntityPath × TimelineName × ComponentIdentifier) × AbsoluteTimeRange)
  | .virtualAddition manifest => (Assoc.toList manifest.temporalMap).map fun p =>
      ((p.1.1, p.1.2.1.name, p.1.2.2.1), p.2.timeRange)
  | .addition before after lineage =>
    match lineage with
    | .compactedFrom _ => after.componentRanges
    | .splitFrom _ _ => after.componentRanges
    | _ => before.componentRanges
  | .deletion del => del.chunk.componentRanges

end ChunkStoreDiff

/-- The smallest time that diffs touch, for each key. -/
def temporalLatestAt (diffs : List ChunkStoreDiff) : Assoc QueryCacheKey TimeInt :=
  (diffs.flatMap ChunkStoreDiff.latestAtRanges).foldl (fun times e =>
    Assoc.upsert times ⟨e.1.1, some e.1.2.1, e.1.2.2⟩ e.2.min (min · e.2.min)) ∅

/-! ## The cache of a store -/

structure QueryCache where
  mightRequireClearing : List EntityPath
  latestAtPerCacheKey : Assoc QueryCacheKey LatestAtCache

namespace QueryCache

def new : QueryCache := ⟨[], ∅⟩

def onEvents (cache : QueryCache) (diffs : List ChunkStoreDiff) : QueryCache :=
  let static := diffs.flatMap ChunkStoreDiff.staticComponents
  let temporal := temporalLatestAt diffs
  let clears := (static.filter fun p => decide (p.2 = clearIsRecursive)).map (fun p => p.1) ++
    ((Assoc.toList temporal).filter fun p => decide (p.1.component = clearIsRecursive)).map
      fun p => p.1.entityPath
  let caches := Assoc.map cache.latestAtPerCacheKey fun key c =>
    if (key.entityPath, key.component) ∈ static then c.invalidate TimeInt.STATIC else c
  { mightRequireClearing := clears.foldl (fun s e => s.insert e) cache.mightRequireClearing
    latestAtPerCacheKey := Assoc.map caches fun key c => (temporal.lookup key).elim c c.invalidate }

def gc (cache : QueryCache) (splitPoint : QueryCacheKey → Nat) : QueryCache :=
  { cache with latestAtPerCacheKey :=
      Assoc.map cache.latestAtPerCacheKey fun key c => c.splitOff (splitPoint key) }

def latestAtComponent (cache : QueryCache) (mode : ChunkTrackingMode) (st : ChunkStore)
    (query : LatestAtQuery) (e : EntityPath) (component : ComponentIdentifier) :
    Option (QueryCache × Option UnitChunkShared × List ChunkId) :=
  let key : QueryCacheKey := ⟨e, query.timeline, component⟩
  let entry := ((cache.latestAtPerCacheKey.lookup key).getD .new).handlePendingInvalidation
  (entry.latestAt mode st query e component).map fun answer =>
    ({ cache with latestAtPerCacheKey := AList.insert key answer.1 cache.latestAtPerCacheKey }, answer.2)

end QueryCache

/-! ## Tombstones -/

/-- The order of indices: static data comes last. -/
def compareIndices (lhs rhs : TimeInt ×ₗ RowId) : Ordering :=
  if (ofLex lhs).1 = TimeInt.STATIC ∧ (ofLex rhs).1 = TimeInt.STATIC then
    compare (ofLex lhs).2 (ofLex rhs).2
  else if (ofLex rhs).1 = TimeInt.STATIC then .lt
  else if (ofLex lhs).1 = TimeInt.STATIC then .gt
  else compare lhs rhs

namespace EntityPath

def parent (e : EntityPath) : Option EntityPath :=
  if e.parts = [] then none else some ⟨e.parts.dropLast⟩

def selfAndAncestors (e : EntityPath) : List EntityPath := e.parts.inits.reverse.map EntityPath.mk

end EntityPath

structure ClearSearch where
  cache : QueryCache
  maxClearIndex : TimeInt ×ₗ RowId
  missingVirtual : List ChunkId

structure LatestAtResults where
  missingVirtual : List ChunkId
  minIndex : TimeInt ×ₗ RowId
  maxIndex : TimeInt ×ₗ RowId
  components : Assoc ComponentIdentifier UnitChunkShared

namespace LatestAtResults

def empty : LatestAtResults where
  missingVirtual := []
  minIndex := toLex (TimeInt.MAX, Fin.last _)
  maxIndex := toLex (TimeInt.STATIC, 0)
  components := ∅

def add (results : LatestAtResults) (component : ComponentIdentifier) (index : TimeInt ×ₗ RowId)
    (unit : UnitChunkShared) : LatestAtResults :=
  { results with
    minIndex := min results.minIndex index
    maxIndex := max results.maxIndex index
    components := AList.insert component unit results.components }

end LatestAtResults

def ChunkStore.entityHasComponentOnTimeline (st : ChunkStore) (timeline : Option TimelineName)
    (e : EntityPath) (component : ComponentIdentifier) : Bool :=
  (st.staticChunkIdsPerEntity.lookup (e, component)).isSome ||
    timeline.any fun timeline =>
      (st.temporalChunkIdsPerEntityPerComponent.lookup (e, timeline, component)).isSome

namespace QueryCache

/-- Look for a tombstone on one entity. Any will do on the queried entity, only a recursive one on
an ancestor; one that cannot be read hides everything. -/
def searchClear (isRecursive : Cell → Bool) (mode : ChunkTrackingMode) (st : ChunkStore)
    (query : LatestAtQuery) (e : EntityPath) (potentialClears : List EntityPath) (search : ClearSearch)
    (path : EntityPath) : Option ClearSearch :=
  if path ∉ potentialClears then some search
  else
    (search.cache.latestAtComponent mode st query path clearIsRecursive).map fun answer =>
      match answer.2.1 with
      | some cached =>
        let foundRecursiveClear := (cached.cell clearIsRecursive).any isRecursive
        match cached.index query.timeline with
        | some index =>
          if (path = e ∨ foundRecursiveClear = true) ∧ compareIndices index search.maxClearIndex = .gt then
            { search with cache := answer.1, maxClearIndex := index }
          else { search with cache := answer.1 }
        | none => { search with cache := answer.1 }
      | none =>
        if answer.2.2 ≠ [] then
          { cache := answer.1
            maxClearIndex := toLex (TimeInt.MAX, Fin.last _)
            missingVirtual := search.missingVirtual ++ answer.2.2 }
        else { search with cache := answer.1 }

/-- Query one component of an entity, and drop the row if a tombstone hides it. -/
def queryComponent (mode : ChunkTrackingMode) (st : ChunkStore) (query : LatestAtQuery) (e : EntityPath)
    (maxClearIndex : TimeInt ×ₗ RowId) (acc : QueryCache × LatestAtResults)
    (component : ComponentIdentifier) : Option (QueryCache × LatestAtResults) :=
  (acc.1.latestAtComponent mode st query e component).map fun answer =>
    let results := { acc.2 with missingVirtual := acc.2.missingVirtual ++ answer.2.2 }
    match answer.2.1 with
    | none => (answer.1, results)
    | some cached =>
      match cached.index query.timeline with
      | none => (answer.1, results)
      | some index =>
        if component = clearIsRecursive ∨ compareIndices index maxClearIndex = .gt then
          (answer.1, results.add component index cached)
        else (answer.1, results)

/-- The latest rows of some components of an entity, tombstones taken into account. -/
def latestAt (isRecursive : Cell → Bool) (cache : QueryCache) (mode : ChunkTrackingMode) (st : ChunkStore)
    (query : LatestAtQuery) (e : EntityPath) (components : List ComponentIdentifier) :
    Option (QueryCache × LatestAtResults) :=
  let components := components.filter (st.entityHasComponentOnTimeline query.timeline e)
  let potentialClears := cache.mightRequireClearing
  let start : ClearSearch := ⟨cache, toLex (TimeInt.MIN, 0), []⟩
  let search :=
    if potentialClears.isEmpty then some start
    else e.selfAndAncestors.foldlM (searchClear isRecursive mode st query e potentialClears) start
  search.bind fun search =>
    components.foldlM (queryComponent mode st query e search.maxClearIndex)
      (search.cache, { LatestAtResults.empty with missingVirtual := search.missingVirtual })

variable {isRecursive : Cell → Bool} {mode : ChunkTrackingMode} {st : ChunkStore} {query : LatestAtQuery}
  {e path : EntityPath} {component : ComponentIdentifier} {maxIndex : TimeInt ×ₗ RowId}

theorem searchClear_cache {potentialClears : List EntityPath} {search out : ClearSearch}
    (h : searchClear isRecursive mode st query e potentialClears search path = some out) :
    out.cache = search.cache ∨ ∃ answer,
      search.cache.latestAtComponent mode st query path clearIsRecursive = some answer ∧ out.cache = answer.1 := by
  unfold searchClear at h
  split at h
  · cases h
    exact .inl rfl
  · obtain ⟨answer, hanswer, rfl⟩ := Option.map_eq_some_iff.mp h
    refine .inr ⟨answer, hanswer, ?_⟩
    dsimp only
    split
    · split
      · split <;> rfl
      · rfl
    · split <;> rfl

theorem queryComponent_cases {acc out : QueryCache × LatestAtResults}
    (h : queryComponent mode st query e maxIndex acc component = some out) :
    ∃ answer, acc.1.latestAtComponent mode st query e component = some answer ∧ out.1 = answer.1 ∧
      (out.2.components = acc.2.components ∨ ∃ unit index, answer.2.1 = some unit ∧
        unit.index query.timeline = some index ∧
        (component = clearIsRecursive ∨ compareIndices index maxIndex = .gt) ∧
        out.2.components = AList.insert component unit acc.2.components) := by
  obtain ⟨answer, hanswer, rfl⟩ := Option.map_eq_some_iff.mp h
  refine ⟨answer, hanswer, ?_⟩
  split
  · exact ⟨rfl, .inl rfl⟩
  · rename_i unit hunit
    split
    · exact ⟨rfl, .inl rfl⟩
    · rename_i index hindex
      split
      · rename_i hadds
        exact ⟨rfl, .inr ⟨unit, index, hunit, hindex, hadds, rfl⟩⟩
      · exact ⟨rfl, .inl rfl⟩

end QueryCache

end Dalaran
