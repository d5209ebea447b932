import Mathlib.Data.List.Destutter
import Dalaran.Store.Lineage
import Dalaran.Manifest.LoadedRanges

/-
  The index of what a manifest lists (`dlr_manifest_index.rs`, `chunk_requests.rs`).

  It keeps the load state of every root chunk, the pending requests, and, for one
  timeline, which ranges are loaded. Left out, since nothing modelled reads them:
  entity paths and temporal ranges of root chunks, the ranges shown in the time
  panel, static data flags, sizes and download history.

  Correspondence (Rust ↔ Lean):
    `RrdManifest`, its row columns ↔ `RrdManifest`, `RrdManifestRow`
    `RrdManifest::concat` ↔ `RrdManifest.concat`, told whether Arrow succeeds
    `ChunkRequests::{receive_finished, cancel_outdated_requests}` ↔ `ChunkRequests.*`
  Byte sizes are natural numbers. Nested maps are keyed by the tuple of their
  keys, and an entity path stands for its hash.
-/

namespace Dalaran

/-! ## Manifests -/

structure RrdManifestRow where
  chunkId : ChunkId
  byteSize : Nat
  byteSizeUncompressed : Nat
  deriving DecidableEq

structure RrdManifest extends DlrManifest where
  rows : List RrdManifestRow

namespace RrdManifest

def colChunkIds (m : RrdManifest) : List ChunkId := m.rows.map (·.chunkId)

/-- The rows and the maps of two manifests, unless the record batches cannot be concatenated. -/
def concat (concatenates : Bool) (a b : RrdManifest) : Option RrdManifest :=
  if concatenates then
    some
      { rows := a.rows ++ b.rows
        staticMap := (Assoc.toList b.staticMap).foldl (fun s e => s.insert e.1 e.2) a.staticMap
        temporalMap := (Assoc.toList b.temporalMap).foldl (fun s e => s.insert e.1 e.2) a.temporalMap }
  else none

end RrdManifest

/-! ## Requests -/

inductive LoadState where
  | unloaded
  | inTransit
  | fullyLoaded
  deriving DecidableEq

def LoadState.isFullyLoaded (s : LoadState) : Bool := decide (s = .fullyLoaded)

structure RootChunkInfo where
  rowId : Nat
  state : LoadState
  deriving DecidableEq

def RootChunkInfo.new (rowIdx : Nat) : RootChunkInfo := ⟨rowIdx, .unloaded⟩

/-- What is known of a batch of chunks being downloaded. -/
structure RequestInfo where
  rootChunkIds : OrdSet ChunkId
  rowIndices : OrdSet Nat
  sizeBytesUncompressed : Nat
  sizeBytesOnWire : Nat
  deriving DecidableEq

/-- A download that is not done yet, that failed, or that brought some chunks. -/
inductive ChunkPromise where
  | pending
  | ready (result : Except Unit (List Chunk))

structure ChunkBatchRequest where
  promise : Option ChunkPromise
  info : RequestInfo

abbrev ChunkRequests := List ChunkBatchRequest

namespace ChunkRequests

/-- What the promise of a batch has brought, and whether the batch stays. -/
def poll (batch : ChunkBatchRequest) : List Chunk × Bool :=
  match batch.promise with
  | some (.ready (.ok chunks)) => (chunks, false)
  | some (.ready (.error _)) => ([], false)
  | some .pending => ([], true)
  | none => ([], false)

def receiveFinished (requests : ChunkRequests) : List Chunk × ChunkRequests :=
  (requests.flatMap fun batch => (poll batch).1, requests.filter fun batch => (poll batch).2)

def outdated (desired : OrdSet ChunkId) (batch : ChunkBatchRequest) : Bool :=
  batch.info.rootChunkIds.elems.all fun id => decide (id ∉ desired)

def cancelOutdatedRequests (requests : ChunkRequests) (desired : OrdSet ChunkId) : List ChunkId × ChunkRequests :=
  ((requests.filter (outdated desired)).flatMap (·.info.rootChunkIds.elems),
    requests.filter fun batch => !outdated desired batch)

end ChunkRequests

/-! ## Roots -/

namespace LineageDroppingCtx

def collectRootIds (ctx : LineageDroppingCtx) : Nat → ChunkId → List ChunkId
  | 0, _ => []
  | fuel + 1, id =>
    match ctx.directLineage id with
    | some (.splitFrom source _) => collectRootIds ctx fuel source
    | some (.compactedFrom sources) => sources.flatMap (collectRootIds ctx fuel)
    | some (.rootFromManifest _) => [id]
    | some .volatile => [id]
    | none => []

/-- No lineage is longer than the map that holds it. -/
def findRootChunks (ctx : LineageDroppingCtx) (id : ChunkId) : List ChunkId :=
  ctx.collectRootIds (ctx.chunksLineage.entries.length + 1) id

end LineageDroppingCtx

/-! ## Temporal chunks -/

structure ChunkCountInfo where
  id : ChunkId
  timeRange : AbsoluteTimeRange
  numRows : Nat
  deriving DecidableEq

/-- The chunks of each component of each entity on each timeline. -/
abbrev SortedTemporalChunks := Assoc (TimelineName × ComponentPathKey) (List ChunkCountInfo)

namespace SortedTemporalChunks

/-- Drop what repeats an id, and order by the start. -/
def sorted (chunks : List ChunkCountInfo) : List ChunkCountInfo :=
  ((chunks.insertionSort fun a b => a.id ≤ b.id).destutter fun a b => a.id ≠ b.id).insertionSort
    fun a b => a.timeRange.min ≤ b.timeRange.min

def collect (manifest : DlrManifest) : SortedTemporalChunks :=
  (Assoc.toList manifest.temporalMap).foldl (fun s e =>
    Assoc.upsert s (e.1.2.1.name, ⟨e.1.1, e.1.2.2.1⟩) []
      (· ++ [⟨e.1.2.2.2, e.2.timeRange, e.2.numRows⟩])) ∅

def new (manifest : DlrManifest) : SortedTemporalChunks :=
  Assoc.map (collect manifest) fun _ chunks => sorted chunks

def iterAllComponentChunksOnTimeline (s : SortedTemporalChunks) (timeline : TimelineName) :
    List (List ChunkCountInfo) :=
  ((Assoc.toList s).filter fun e => decide (e.1.1 = timeline)).map (·.2)

end SortedTemporalChunks

/-! ## The index -/

structure PrioritizationState where
  transitBudgetFilled : Bool
  memoryBudgetFilled : Bool
  someChunksTooBig : Bool
  allRequiredAreLoaded : Option Bool
  deriving DecidableEq

structure ProtectedChunks where
  roots : OrdSet ChunkId
  physical : OrdSet ChunkId

structure ChunkPrioritizer where
  protectedChunks : ProtectedChunks
  latestResult : Option PrioritizationState
  chunkRequests : ChunkRequests
  componentPathsFromRootId : Assoc ChunkId (List ComponentPathKey)
  componentsOfInterest : Finset ComponentPathKey

structure LoadedRanges where
  ranges : MergedRanges
  timeline : TimelineName

structure RrdManifestIndex where
  manifest : Option RrdManifest
  rootChunks : Assoc ChunkId RootChunkInfo
  chunkPrioritizer : ChunkPrioritizer
  sortedChunks : SortedTemporalChunks
  loadedRanges : Option LoadedRanges
  timelines : Assoc TimelineName AbsoluteTimeRange

def RrdManifestIndex.default : RrdManifestIndex where
  manifest := none
  rootChunks := ∅
  chunkPrioritizer :=
    { protectedChunks := ⟨OrdSet.empty, OrdSet.empty⟩
      latestResult := none
      chunkRequests := []
      componentPathsFromRootId := ∅
      componentsOfInterest := ∅ }
  sortedChunks := ∅
  loadedRanges := none
  timelines := ∅

def componentPaths (paths : Assoc ChunkId (List ComponentPathKey)) (delta : DlrManifest) :
    Assoc ChunkId (List ComponentPathKey) :=
  let static := (Assoc.toList delta.staticMap).foldl (fun paths e =>
    Assoc.upsert paths e.2 [] (· ++ [⟨e.1.1, e.1.2⟩])) paths
  (Assoc.toList delta.temporalMap).foldl (fun paths e =>
    Assoc.upsert paths e.1.2.2.2 [] (· ++ [⟨e.1.1, e.1.2.2.1⟩])) static

def withLastMax (max : TimeInt) : List TimeRange → List TimeRange
  | [] => []
  | [r] => [r.withMax max]
  | r :: r' :: l => r :: withLastMax max (r' :: l)

structure ChunkFetchResult where
  newInTransitChunks : List ChunkId
  timeCursor : Option TimelineName

namespace RrdManifestIndex

def extendTimeline (timelines : Assoc TimelineName AbsoluteTimeRange) (timeline : TimelineName)
    (range : AbsoluteTimeRange) : Assoc TimelineName AbsoluteTimeRange :=
  let timelineRange := ((timelines.lookup timeline).getD AbsoluteTimeRange.EMPTY).union range
  if timelineRange = AbsoluteTimeRange.EMPTY then timelines else timelines.insert timeline timelineRange

def updateTimelineStats (timelines : Assoc TimelineName AbsoluteTimeRange) (manifest : DlrManifest) :
    Assoc TimelineName AbsoluteTimeRange :=
  (Assoc.toList manifest.temporalMap).foldl (fun timelines e =>
    extendTimeline timelines e.1.2.1.name e.2.timeRange) timelines

/-- List the rows of a manifest, the first of them at an offset. -/
def insertRows (rootChunks : Assoc ChunkId RootChunkInfo) (rowOffset : Nat) :
    List RrdManifestRow → Assoc ChunkId RootChunkInfo
  | [] => rootChunks
  | row :: rows =>
    insertRows (rootChunks.insert row.chunkId (RootChunkInfo.new rowOffset)) (rowOffset + 1) rows

/-- Append a part of the manifest. When the parts cannot be concatenated, the index is left without a
manifest. -/
def append (idx : RrdManifestIndex) (delta : RrdManifest) (concatenates : Bool) :
    RrdManifestIndex × Except Unit Unit :=
  let rowOffset := idx.manifest.elim 0 (·.rows.length)
  let idx : RrdManifestIndex :=
    { idx with
      timelines := updateTimelineStats idx.timelines delta.toDlrManifest
      chunkPrioritizer :=
        { idx.chunkPrioritizer with
          componentPathsFromRootId :=
            componentPaths idx.chunkPrioritizer.componentPathsFromRootId delta.toDlrManifest }
      loadedRanges := none
      rootChunks := insertRows idx.rootChunks rowOffset delta.rows }
  let full := match idx.manifest with
    | some existing => RrdManifest.concat concatenates existing delta
    | none => some delta
  match full with
  | none => ({ idx with manifest := none }, .error ())
  | some full =>
    ({ idx with sortedChunks := SortedTemporalChunks.new full.toDlrManifest, manifest := some full }, .ok ())

/-! ### Load states -/

def setState (idx : RrdManifestIndex) (chunk : ChunkId) (state : LoadState) : RrdManifestIndex :=
  { idx with rootChunks := Assoc.modify idx.rootChunks chunk fun info => { info with state := state } }

/-- Mark one root, and count it if it became loaded or no longer is. -/
def markRootAs (idx : RrdManifestIndex) (newState : LoadState) (chunk : ChunkId) : RrdManifestIndex :=
  match idx.rootChunks.lookup chunk with
  | none => idx
  | some info =>
    let paths := idx.chunkPrioritizer.componentPathsFromRootId
    { idx.setState chunk newState with
      loadedRanges := idx.loadedRanges.map fun loadedRanges =>
        if info.state.isFullyLoaded ≠ newState.isFullyLoaded then
          if newState.isFullyLoaded then
            { loadedRanges with ranges := loadedRanges.ranges.onChunkLoaded chunk paths }
          else { loadedRanges with ranges := loadedRanges.ranges.onChunkUnloaded chunk paths }
        else loadedRanges }

def markRootsAs (idx : RrdManifestIndex) (store : ChunkStore) (chunk : ChunkId) (newState : LoadState) :
    RrdManifestIndex :=
  (store.findRootChunks chunk).foldl (fun idx root => idx.markRootAs newState root) idx

def onEvent (idx : RrdManifestIndex) (store : ChunkStore) : ChunkStoreDiff → RrdManifestIndex
  | .addition before _ _ => idx.markRootsAs store before.id .fullyLoaded
  | .deletion deletion => idx.markRootsAs store deletion.chunk.id .unloaded
  | .virtualAddition _ => idx

def onEvents (idx : RrdManifestIndex) (store : ChunkStore) (events : List ChunkStoreDiff) : RrdManifestIndex :=
  match idx.manifest with
  | none => idx
  | some _ => events.foldl (fun idx event => idx.onEvent store event) idx

def cancelOutdatedRequests (idx : RrdManifestIndex) : RrdManifestIndex :=
  match idx.manifest with
  | none => idx
  | some _ =>
    let (cancelled, requests) := ChunkRequests.cancelOutdatedRequests
      idx.chunkPrioritizer.chunkRequests idx.chunkPrioritizer.protectedChunks.roots
    cancelled.foldl (fun idx chunk => idx.setState chunk .unloaded)
      { idx with chunkPrioritizer := { idx.chunkPrioritizer with chunkRequests := requests } }

def receiveFinished (idx : RrdManifestIndex) : List Chunk × RrdManifestIndex :=
  let (chunks, requests) := ChunkRequests.receiveFinished idx.chunkPrioritizer.chunkRequests
  (chunks, { idx with chunkPrioritizer := { idx.chunkPrioritizer with chunkRequests := requests } })

/-! ### Loaded ranges -/

def isUnloaded (idx : RrdManifestIndex) (chunk : ChunkId) : Bool :=
  match idx.rootChunks.lookup chunk with
  | some info => !info.state.isFullyLoaded
  | none => true

def componentRanges (timelineRange : AbsoluteTimeRange) (chunks : List ChunkCountInfo) : List TimeRange :=
  withLastMax timelineRange.max (mergeRanges (chunks.map fun info => TimeRange.new info.id info.timeRange))

/-- The merged ranges, with one order among ranges the heap holds to be equal; `merge_covers` is about
every such order. -/
def mergedOn (idx : RrdManifestIndex) (timeline : TimelineName) (timelineRange : AbsoluteTimeRange) :
    List TimeRange :=
  mergeRanges ((idx.sortedChunks.iterAllComponentChunksOnTimeline timeline).flatMap
    (componentRanges timelineRange))

def rebuildLoadedRanges (idx : RrdManifestIndex) (timeline : TimelineName) : RrdManifestIndex :=
  match idx.timelines.lookup timeline with
  | none => idx
  | some timelineRange =>
    { idx with
      loadedRanges := some
        { ranges := MergedRanges.new (idx.mergedOn timeline timelineRange)
            idx.chunkPrioritizer.componentsOfInterest
            idx.chunkPrioritizer.componentPathsFromRootId idx.isUnloaded
          timeline := timeline } }

/-- The ranges are only merged anew for another timeline. -/
def updateLoadedRanges (idx : RrdManifestIndex) (timeline : TimelineName) : RrdManifestIndex :=
  match idx.loadedRanges with
  | some loadedRanges =>
    if loadedRanges.timeline = timeline then
      { idx with
        loadedRanges := some
          { loadedRanges with
            ranges := loadedRanges.ranges.updateComponentsOfInterest
              idx.chunkPrioritizer.componentsOfInterest
              idx.chunkPrioritizer.componentPathsFromRootId idx.isUnloaded } }
    else idx.rebuildLoadedRanges timeline
  | none => idx.rebuildLoadedRanges timeline

def handleFetchResult (idx : RrdManifestIndex) (res : ChunkFetchResult) : RrdManifestIndex :=
  let idx := res.newInTransitChunks.foldl (fun idx chunk => idx.setState chunk .inTransit) idx
  match res.timeCursor with
  | some timeline => idx.updateLoadedRanges timeline
  | none => idx

def loadedRangesOnTimeline (idx : RrdManifestIndex) (timeline : TimelineName) : List AbsoluteTimeRange :=
  match idx.loadedRanges with
  | some loadedRanges => if loadedRanges.timeline = timeline then loadedRanges.ranges.loadedRanges else []
  | none => []

end RrdManifestIndex

end Dalaran
