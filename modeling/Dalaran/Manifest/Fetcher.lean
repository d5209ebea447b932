import Dalaran.Manifest.Index

/-
  One prefetch pass (`chunk_prioritizer.rs`): prepare, fetch, finish, and what
  the index makes of the result.

  `next_chunk` gives the root chunks in some order of priority; here a pass comes
  with that order (`queue`), which can be any list, also one with repetitions.
  Each call of `fetch` comes with its own budget, since recordings share one.

  Correspondence (Rust ↔ Lean):
    `ChunkStore::collect_physical_descendents_of` ↔ `physicalDescendentsOf`
    `prepare_chunk_fetcher`, `fetch_inner`, `finish` ↔ `prepare`, `fetch`, `finish`
    `prefetch_chunks` (index), `fetch_chunks` (viewer) ↔ `RrdManifestIndex.prefetch`
  The outer `none` of a result is a row that the manifest does not have, on which
  the source panics. The record batch of a request is not modelled, only whether
  Arrow gives one (`takes`).
-/

namespace Dalaran

/-! ## Stages and budgets -/

inductive FetchStage where
  | required
  | indicated
  | similar (timeCursorOffset : Option Nat)
  | everything
  deriving DecidableEq

namespace FetchStage

def isRequired : FetchStage → Bool
  | required => true
  | _ => false

/-- `Ord::cmp`; an unbounded offset comes last. -/
def cmp : FetchStage → FetchStage → Ordering
  | required, required => .eq
  | indicated, indicated => .eq
  | everything, everything => .eq
  | similar (some a), similar (some b) => compare a b
  | similar (some _), similar none => .lt
  | similar none, similar (some _) => .gt
  | similar none, similar none => .eq
  | required, _ => .lt
  | _, everything => .lt
  | _, required => .gt
  | everything, _ => .gt
  | indicated, _ => .lt
  | _, indicated => .gt

end FetchStage

structure PrioritizedRootChunk where
  stage : FetchStage
  rootChunkId : ChunkId
  deriving DecidableEq

structure RemainingByteBudget where
  totalBytesInMemory : Nat
  remainingBytesInMemory : Nat
  remainingBytesOnWire : I64
  deriving DecidableEq

namespace RemainingByteBudget

/-- Take memory for some bytes. A required chunk is always given it. -/
def tryFitInMemory (b : RemainingByteBudget) (bytes : Nat) (required : Bool) : Bool × RemainingByteBudget :=
  let b := { b with remainingBytesInMemory := b.remainingBytesInMemory - bytes }
  (if b.remainingBytesInMemory = 0 then required else true, b)

def tryFitOnWire (b : RemainingByteBudget) (bytes : Nat) : Bool × RemainingByteBudget :=
  (decide (0 < b.remainingBytesOnWire.val),
    { b with remainingBytesOnWire := I64.sat (b.remainingBytesOnWire.val - bytes) })

end RemainingByteBudget

/-! ## Batches -/

structure CurrentBatch where
  rowIndices : List Nat
  uncompressedBytes : Nat
  onWireBytes : Nat

structure ChunkRequestBatcher where
  rows : List RrdManifestRow
  maxOnWireBytesPerBatch : Nat
  currentBatch : CurrentBatch
  toLoad : List RequestInfo

namespace ChunkRequestBatcher

def chunksOf (rows : List RrdManifestRow) (rowIndices : List Nat) : Option (List ChunkId) :=
  rowIndices.mapM fun i => (rows[i]?).map (·.chunkId)

/-- Make a request of the current batch. When Arrow cannot take its rows, they are gone from the
batch. -/
def finishBatch (takes : List Nat → Bool) (b : ChunkRequestBatcher) :
    Option (ChunkRequestBatcher × Except Unit Unit) :=
  if b.currentBatch.rowIndices.isEmpty then some (b, .ok ())
  else
    let rowIndices := OrdSet.ofList b.currentBatch.rowIndices
    match chunksOf b.rows rowIndices.elems with
    | none => none
    | some chunks =>
      if takes b.currentBatch.rowIndices then
        some
          ({ b with
              currentBatch := ⟨[], 0, 0⟩
              toLoad := b.toLoad ++
                [{ rootChunkIds := OrdSet.ofList chunks
                   rowIndices := rowIndices
                   sizeBytesUncompressed := b.currentBatch.uncompressedBytes
                   sizeBytesOnWire := b.currentBatch.onWireBytes }] }, .ok ())
      else some ({ b with currentBatch := { b.currentBatch with rowIndices := [] } }, .error ())

def addRow (b : ChunkRequestBatcher) (rowIdx : Nat) (row : RrdManifestRow) : ChunkRequestBatcher :=
  { b with
    currentBatch :=
      { rowIndices := b.currentBatch.rowIndices ++ [rowIdx]
        uncompressedBytes := b.currentBatch.uncompressedBytes + row.byteSizeUncompressed
        onWireBytes := b.currentBatch.onWireBytes + row.byteSize } }

def tryFetch (takes : List Nat → Bool) (b : ChunkRequestBatcher) (rowIdx : Nat)
    (budget : RemainingByteBudget) :
    Option (ChunkRequestBatcher × RemainingByteBudget × Except Unit Bool) :=
  match b.rows[rowIdx]? with
  | none => none
  | some row =>
    match budget.tryFitOnWire row.byteSize with
    | (false, budget) => some (b, budget, .ok false)
    | (true, budget) =>
      let b := b.addRow rowIdx row
      if b.maxOnWireBytesPerBatch ≤ b.currentBatch.onWireBytes then
        (b.finishBatch takes).map fun r => (r.1, budget, r.2.map fun _ => true)
      else some (b, budget, .ok true)

end ChunkRequestBatcher

/-! ## What the store has of a chunk -/

namespace ChunkStore

def compactedInto (st : ChunkStore) : Nat → ChunkId → Option ChunkId
  | 0, _ => none
  | fuel + 1, id =>
    match st.leakyCompactions.lookup id with
    | none => none
    | some id' => if (st.physical id').isSome then some id' else compactedInto st fuel id'

def physicalDescendentsOf (st : ChunkStore) (id : ChunkId) : List ChunkId :=
  if (st.physical id).isSome then [id]
  else
    match st.danglingSplits.lookup id with
    | some splits => splits.filter fun id => (st.physical id).isSome
    | none => (st.compactedInto (st.leakyCompactions.entries.length + 1) id).toList

end ChunkStore

/-- What was queried since the last pass. -/
structure QueriedChunkIdTracker where
  usedPhysical : List ChunkId
  transientUsedPhysical : List ChunkId
  missingVirtual : List ChunkId
  transientMissingVirtual : List ChunkId
  indicatedVirtual : List ChunkId

/-! ## The fetcher -/

structure ChunkFetcher where
  visitedRootChunks : OrdSet ChunkId
  state : PrioritizationState
  protectedChunks : ProtectedChunks
  queue : List PrioritizedRootChunk
  batcher : ChunkRequestBatcher

/-- Whether the loop goes on after a chunk. -/
inductive Flow where
  | next
  | stop
  | fail
  deriving DecidableEq

namespace ChunkFetcher

/-- Protect physical chunks, as far as the memory allows. -/
def protectPhysical (store : ChunkStore) (required : Bool) :
    List ChunkId → ChunkFetcher → RemainingByteBudget → ChunkFetcher × RemainingByteBudget
  | [], f, budget => (f, budget)
  | id :: ids, f, budget =>
    if id ∈ f.protectedChunks.physical then protectPhysical store required ids f budget
    else
      match store.physical id with
      | none => protectPhysical store required ids f budget
      | some chunk =>
        match budget.tryFitInMemory chunk.sizeBytes required with
        | (false, budget) => ({ f with state := { f.state with memoryBudgetFilled := true } }, budget)
        | (true, budget) =>
          protectPhysical store required ids
            { f with
              protectedChunks :=
                { f.protectedChunks with physical := f.protectedChunks.physical.insert id } } budget

def protectRoot (f : ChunkFetcher) (id : ChunkId) : ChunkFetcher :=
  { f with protectedChunks := { f.protectedChunks with roots := f.protectedChunks.roots.insert id } }

def protectAll (store : ChunkStore) (id : ChunkId) (f : ChunkFetcher) : ChunkFetcher :=
  { f with
    protectedChunks :=
      { roots := f.protectedChunks.roots.insert id
        physical := f.protectedChunks.physical.insertAll (store.physicalDescendentsOf id) } }

/-- A chunk that is not loaded: fetch it if nobody does. -/
def visitUnloaded (store : ChunkStore) (takes : List Nat → Bool) (chunk : PrioritizedRootChunk)
    (info : RootChunkInfo) (f : ChunkFetcher) (budget : RemainingByteBudget) :
    Option (ChunkFetcher × RemainingByteBudget × Flow) :=
  let f := if chunk.stage.isRequired then
    { f with state := { f.state with allRequiredAreLoaded := some false } } else f
  match f.batcher.rows[info.rowId]? with
  | none => none
  | some row =>
    if budget.totalBytesInMemory < row.byteSizeUncompressed then
      some ({ f with state := { f.state with someChunksTooBig := true } }, budget, .next)
    else
      match budget.tryFitInMemory row.byteSizeUncompressed chunk.stage.isRequired with
      | (false, budget) =>
        some ({ f with state := { f.state with memoryBudgetFilled := true } }, budget, .stop)
      | (true, budget) =>
        if info.state = .unloaded then
          match f.batcher.tryFetch takes info.rowId budget with
          | none => none
          | some (batcher, budget, .error _) => some ({ f with batcher := batcher }, budget, .fail)
          | some (batcher, budget, .ok false) =>
            some ({ f with batcher := batcher, state := { f.state with transitBudgetFilled := true } },
              budget, .stop)
          | some (batcher, budget, .ok true) =>
            some (protectAll store chunk.rootChunkId { f with batcher := batcher }, budget, .next)
        else some (f.protectAll store chunk.rootChunkId, budget, .next)

def visitLoaded (store : ChunkStore) (chunk : PrioritizedRootChunk) (f : ChunkFetcher)
    (budget : RemainingByteBudget) : ChunkFetcher × RemainingByteBudget × Flow :=
  let (f, budget) := protectPhysical store chunk.stage.isRequired
    (store.physicalDescendentsOf chunk.rootChunkId) (f.protectRoot chunk.rootChunkId) budget
  (f, budget, if f.state.memoryBudgetFilled then .stop else .next)

def visit (store : ChunkStore) (rootChunks : Assoc ChunkId RootChunkInfo) (takes : List Nat → Bool)
    (chunk : PrioritizedRootChunk) (f : ChunkFetcher) (budget : RemainingByteBudget) :
    Option (ChunkFetcher × RemainingByteBudget × Flow) :=
  if chunk.rootChunkId ∈ f.visitedRootChunks then some (f, budget, .next)
  else
    let f := { f with visitedRootChunks := f.visitedRootChunks.insert chunk.rootChunkId }
    match rootChunks.lookup chunk.rootChunkId with
    | none => some (f, budget, .next)
    | some info =>
      if info.state.isFullyLoaded then some (visitLoaded store chunk f budget)
      else visitUnloaded store takes chunk info f budget

def fetchLoop (store : ChunkStore) (rootChunks : Assoc ChunkId RootChunkInfo) (takes : List Nat → Bool)
    (toState : FetchStage) : List PrioritizedRootChunk → ChunkFetcher → RemainingByteBudget →
      Option (ChunkFetcher × Except Unit Unit)
  | [], f, _ => some ({ f with queue := [] }, .ok ())
  | chunk :: queue, f, budget =>
    if chunk.stage.cmp toState = .gt then some ({ f with queue := chunk :: queue }, .ok ())
    else
      match visit store rootChunks takes chunk f budget with
      | none => none
      | some (f, budget, .next) => fetchLoop store rootChunks takes toState queue f budget
      | some (f, _, .stop) => some ({ f with queue := queue }, .ok ())
      | some (f, _, .fail) => some ({ f with queue := queue }, .error ())

def fetch (store : ChunkStore) (rootChunks : Assoc ChunkId RootChunkInfo) (takes : List Nat → Bool)
    (toState : FetchStage) (budget : RemainingByteBudget) (f : ChunkFetcher) :
    Option (ChunkFetcher × Except Unit Unit) :=
  let f := { f with state := { f.state with
    allRequiredAreLoaded := some (f.state.allRequiredAreLoaded.getD true) } }
  match fetchLoop store rootChunks takes toState f.queue f budget with
  | some (f, .ok ()) =>
    if f.queue.head?.any (·.stage.isRequired) then
      some ({ f with state := { f.state with allRequiredAreLoaded := some false } }, .ok ())
    else some (f, .ok ())
  | r => r

end ChunkFetcher

/-! ## A pass -/

/-- All that one pass gets from outside of the index. -/
structure PrefetchPass where
  store : ChunkStore
  tracker : QueriedChunkIdTracker
  maxOnWireBytesPerBatch : Nat
  timeCursor : Option TimelineName
  queue : List PrioritizedRootChunk
  fetches : List (FetchStage × RemainingByteBudget)
  takes : List Nat → Bool
  abortsOnError : Bool

namespace ChunkPrioritizer

def interestOf (p : ChunkPrioritizer) (store : ChunkStore) (tracker : QueriedChunkIdTracker) :
    Finset ComponentPathKey :=
  ((tracker.usedPhysical.filterMap store.physical).flatMap (fun chunk : Chunk =>
      chunk.components.keys.map fun component => (⟨chunk.entityPath, component⟩ : ComponentPathKey)) ++
    ((tracker.missingVirtual ++ tracker.indicatedVirtual).flatMap fun id =>
      (store.findRootChunks id).flatMap fun root =>
        (p.componentPathsFromRootId.lookup root).getD [])).toFinset

def protectUsedAndMissing (store : ChunkStore) (tracker : QueriedChunkIdTracker) : ProtectedChunks where
  roots := OrdSet.ofList
    ((tracker.missingVirtual ++ tracker.transientMissingVirtual ++ tracker.indicatedVirtual).flatMap
      fun id => store.findRootChunks id)
  physical := OrdSet.ofList (tracker.usedPhysical ++ tracker.transientUsedPhysical)

end ChunkPrioritizer

namespace RrdManifestIndex

def prepare (idx : RrdManifestIndex) (manifest : RrdManifest) (pass : PrefetchPass) :
    RrdManifestIndex × ChunkFetcher :=
  let protectedChunks := ChunkPrioritizer.protectUsedAndMissing pass.store pass.tracker
  ({ idx with
      chunkPrioritizer :=
        { idx.chunkPrioritizer with
          componentsOfInterest := idx.chunkPrioritizer.interestOf pass.store pass.tracker
          protectedChunks := protectedChunks } },
    { visitedRootChunks := OrdSet.empty
      state := ⟨false, false, false, none⟩
      protectedChunks := protectedChunks
      queue := pass.queue
      batcher := ⟨manifest.rows, pass.maxOnWireBytesPerBatch, ⟨[], 0, 0⟩, []⟩ })

def fetchAll (pass : PrefetchPass) (rootChunks : Assoc ChunkId RootChunkInfo) :
    List (FetchStage × RemainingByteBudget) → ChunkFetcher → Option (ChunkFetcher × Except Unit Unit)
  | [], f => some (f, .ok ())
  | (stage, budget) :: fetches, f =>
    match f.fetch pass.store rootChunks pass.takes stage budget with
    | none => none
    | some (f, .ok ()) => fetchAll pass rootChunks fetches f
    | some (f, .error e) =>
      if pass.abortsOnError then some (f, .error e) else fetchAll pass rootChunks fetches f

def withProtected (idx : RrdManifestIndex) (f : ChunkFetcher) : RrdManifestIndex :=
  { idx with chunkPrioritizer := { idx.chunkPrioritizer with protectedChunks := f.protectedChunks } }

def addRequests (idx : RrdManifestIndex) (batches : List RequestInfo) : RrdManifestIndex :=
  { idx with
    chunkPrioritizer :=
      { idx.chunkPrioritizer with
        chunkRequests := idx.chunkPrioritizer.chunkRequests ++ batches.map fun info => ⟨some .pending, info⟩ } }

def finish (idx : RrdManifestIndex) (pass : PrefetchPass) (f : ChunkFetcher) :
    Option (RrdManifestIndex × Except Unit ChunkFetchResult) :=
  let previous := idx.chunkPrioritizer.latestResult.bind (·.allRequiredAreLoaded)
  let state := { f.state with allRequiredAreLoaded := f.state.allRequiredAreLoaded.or previous }
  let idx : RrdManifestIndex :=
    { idx.withProtected f with
      chunkPrioritizer := { (idx.withProtected f).chunkPrioritizer with latestResult := some state } }
  match f.batcher.finishBatch pass.takes with
  | none => none
  | some (_, .error e) => some (idx, .error e)
  | some (batcher, .ok ()) =>
    some (idx.addRequests batcher.toLoad, .ok
      { newInTransitChunks := batcher.toLoad.flatMap (·.rootChunkIds.elems)
        timeCursor := pass.timeCursor })

/-- A whole pass. Without a manifest there is nothing to do. -/
def prefetch (idx : RrdManifestIndex) (pass : PrefetchPass) : Option RrdManifestIndex :=
  match idx.manifest with
  | none => some idx
  | some manifest =>
    let (prepared, fetcher) := idx.prepare manifest pass
    match fetchAll pass idx.rootChunks pass.fetches fetcher with
    | none => none
    | some (fetcher, .error _) => some (prepared.withProtected fetcher)
    | some (fetcher, .ok ()) =>
      match prepared.finish pass fetcher with
      | none => none
      | some (idx, .error _) => some idx
      | some (idx, .ok res) => some (idx.handleFetchResult res)

end RrdManifestIndex

end Dalaran
