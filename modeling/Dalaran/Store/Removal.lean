import Dalaran.Store.Lineage

/-
  Removing chunks from the store (`gc.rs`, `drop_entity_path` in `writes.rs`).

  A shallow removal takes a chunk out of the physical maps and drops its lineage
  reference; the virtual indices keep the id, unless the lineage is gone too. A
  deep removal also takes the ranges of the chunk out of the virtual indices.

  A time budget is an oracle here: `some b` says of each deletion, by its number,
  whether the budget is used up after it; `none` is `Duration::MAX`.

  Correspondence (Rust ↔ Lean):
    `remove_chunks_shallow` ↔ `removeChunksShallow`, its loop body `removeChunkShallow`
-/

namespace Dalaran

namespace ChunkStore

/-- Take the ranges of a chunk out of both virtual indices, and whether any key was occupied. -/
def removeChunkFromVirtualIndices (st : ChunkStore) (c : Chunk) : ChunkStore × Bool :=
  let perComponent :=
    TimeIndex.removeAll st.temporalChunkIdsPerEntityPerComponent c.componentRanges c.id
  let perTimeline := TimeIndex.removeAll st.temporalChunkIdsPerEntity c.timelineRanges c.id
  ({ st with
     temporalChunkIdsPerEntityPerComponent := perComponent.1
     temporalChunkIdsPerEntity := perTimeline.1 },
   perComponent.2 || perTimeline.2)

/-- Take an entry out of the RowId-ordered set. -/
def eraseRowId (st : ChunkStore) (rowId : RowId) (id : ChunkId) : ChunkStore :=
  { st with physicalChunkIdsPerMinRowId := st.physicalChunkIdsPerMinRowId.erase (toLex (rowId, id)) }

/-- Take a chunk out of the RowId-ordered set, if it has a smallest row id. -/
def removeMinRowId (st : ChunkStore) (c : Chunk) (id : ChunkId) : ChunkStore :=
  match c.minRowId with
  | some rowId => st.eraseRowId rowId id
  | none => st

def erasePhysical (st : ChunkStore) (id : ChunkId) : ChunkStore :=
  { st with physicalChunksPerChunkId := AList.erase id st.physicalChunksPerChunkId }

def dropReference (st : ChunkStore) (id : ChunkId) : ChunkStore :=
  st.setLineage (st.dropLineageReference id)

/-- Without a lineage entry left, a removed chunk also leaves the virtual indices. -/
def unlistIfForgotten (st : ChunkStore) (removed : Chunk) : ChunkStore :=
  if (st.chunksLineage.lookup removed.id).isSome then st
  else (st.removeChunkFromVirtualIndices removed).1

def releasePhysical (st : ChunkStore) (removed : Chunk) (id : ChunkId) : ChunkStore :=
  let st := ((st.erasePhysical id).dropReference removed.id).unlistIfForgotten removed
  { st with
    temporalPhysicalChunksStats :=
      st.temporalPhysicalChunksStats - ChunkStoreChunkStats.fromChunk removed }

def removeChunkShallow (st : ChunkStore) (c : Chunk) : ChunkStore × Option Chunk :=
  let st := st.removeMinRowId c c.id
  match st.physical c.id with
  | none => (st, none)
  | some removed => (st.releasePhysical removed c.id, some removed)

def removeShallowLoop (budget : Option (Nat → Bool)) (reason : ChunkDeletionReason) :
    Nat → ChunkStore → List Chunk → ChunkStore × List ChunkStoreDiffDeletion
  | _, st, [] => (st, [])
  | n, st, c :: chunks =>
    match st.removeChunkShallow c with
    | (st, none) => removeShallowLoop budget reason n st chunks
    | (st, some removed) =>
      if budget.any (· n) then (st, [⟨removed, reason⟩])
      else
        let rest := removeShallowLoop budget reason (n + 1) st chunks
        (rest.1, ⟨removed, reason⟩ :: rest.2)

def removeChunksShallow (st : ChunkStore) (chunks : List Chunk) (budget : Option (Nat → Bool))
    (reason : ChunkDeletionReason) : ChunkStore × List ChunkStoreDiffDeletion :=
  removeShallowLoop budget reason 0 st chunks

/-- The loop of `remove_chunks_deep` over the virtual indices. -/
def removeDeepLoop (reason : ChunkDeletionReason) :
    ChunkStore → List Chunk → ChunkStore × List ChunkStoreDiffDeletion
  | st, [] => (st, [])
  | st, c :: chunks =>
    let removed := st.removeChunkFromVirtualIndices c
    let rest := removeDeepLoop reason removed.1 chunks
    (rest.1, if removed.2 then ⟨c, reason⟩ :: rest.2 else rest.2)

/-- The shallow removal ignores the budget here, so that the two indices cannot drift apart. -/
def removeChunksDeep (st : ChunkStore) (chunks : List Chunk) (reason : ChunkDeletionReason) :
    ChunkStore × List ChunkStoreDiffDeletion :=
  let shallow := st.removeChunksShallow chunks none reason
  let deep := removeDeepLoop reason shallow.1 chunks
  let deepIds := deep.2.map (·.chunk.id)
  (deep.1, deep.2 ++ shallow.2.filter fun del => !deepIds.contains del.chunk.id)

/-! ## Dropping an entity -/

def staticChunkIds (st : ChunkStore) (e : EntityPath) : OrdSet ChunkId :=
  (Assoc.toList st.staticChunkIdsPerEntity).foldl
    (fun ids entry => if entry.1.1 = e then ids.insert entry.2 else ids) OrdSet.empty

/-- The ids in the start maps of an entity's timelines, ascending. -/
def temporalChunkIds (st : ChunkStore) (e : EntityPath) : OrdSet ChunkId :=
  (Assoc.toList st.temporalChunkIdsPerEntity).foldl
    (fun ids entry =>
      if entry.1.1 = e then
        entry.2.perStartTime.elems.foldl (fun ids p => ids.insert (ofLex p).2) ids
      else ids) OrdSet.empty

/-- Take the smallest row ids of the given physical chunks out of the RowId-ordered set. -/
def removeMinRowIds (st : ChunkStore) (ids : List ChunkId) : ChunkStore :=
  ids.foldl (fun st id =>
    match st.physical id with
    | some c => st.removeMinRowId c id
    | none => st) st

/-- Drop the given physical chunks, subtracting their statistics. -/
def dropPhysical (isStatic : Bool) : ChunkStore → List ChunkId → ChunkStore × List Chunk
  | st, [] => (st, [])
  | st, id :: ids =>
    match st.physical id with
    | none => dropPhysical isStatic st ids
    | some c =>
      let stats := ChunkStoreChunkStats.fromChunk c
      let st := { st with
        staticChunksStats := if isStatic then st.staticChunksStats - stats else st.staticChunksStats
        temporalPhysicalChunksStats :=
          if isStatic then st.temporalPhysicalChunksStats else st.temporalPhysicalChunksStats - stats }
      let rest := dropPhysical isStatic (st.erasePhysical id) ids
      (rest.1, c :: rest.2)

/-- Keep the entries whose key satisfies a test. -/
def retainKeys {K V : Type} [DecidableEq K] (m : Assoc K V) (keep : K → Bool) : Assoc K V :=
  Assoc.filterMap m fun k v => if keep k then some v else none

def dropStaticMap (st : ChunkStore) (e : EntityPath) : ChunkStore :=
  { st with staticChunkIdsPerEntity := retainKeys st.staticChunkIdsPerEntity fun k => k.1 ≠ e }

/-- Forget the temporal indices of an entity. -/
def dropTemporalMaps (st : ChunkStore) (e : EntityPath) : ChunkStore :=
  { st with
    temporalChunkIdsPerEntityPerComponent :=
      retainKeys st.temporalChunkIdsPerEntityPerComponent fun k => k.1 ≠ e
    temporalChunkIdsPerEntity := retainKeys st.temporalChunkIdsPerEntity fun k => k.1 ≠ e }

/-- Lineage entries stay as they are. -/
def dropEntityPath (st : ChunkStore) (e : EntityPath) : ChunkStore × List ChunkStoreDiff :=
  let staticIds := (st.staticChunkIds e).elems
  let temporalIds := (st.temporalChunkIds e).elems
  let st := (st.dropStaticMap e).removeMinRowIds staticIds
  let st := (st.dropTemporalMaps e).removeMinRowIds temporalIds
  let static := dropPhysical true st staticIds
  let temporal := dropPhysical false static.1 temporalIds
  (temporal.1, (static.2 ++ temporal.2).map fun c => .deletion ⟨c, .explicitDrop⟩)

end ChunkStore

end Dalaran
