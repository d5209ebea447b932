import Dalaran.Store.Removal

/-
  Inserting chunks and manifests into the store (`writes.rs`).

  `insert_chunk` is one long function; the model cuts it where the source says
  what the next block is for: the early returns, the clean-up of what an earlier
  insertion of the same chunk left behind, the splitting, and the static and the
  temporal branch, then the bookkeeping both share. The recursion over the
  pieces of a split is bounded by the number of rows.

  A call that fails returns the store it has written so far, as the source does.

  Correspondence (Rust ↔ Lean):
    its early returns ↔ `earlyReturn`
    its clean-up of virtual entries and dangling splits ↔ `cleanUp`
    its splitting loop ↔ `splitChunks`
    its static and temporal branches ↔ `insertStatic`, `insertTemporal`
-/

namespace Dalaran

namespace ChunkStore

/-! ## Manifests -/

def manifestEntry (isStatic : Bool) : TrackedDirectChunkLineage where
  lineage := .rootFromManifest isStatic
  refCount := 0
  descendsFromManifest := true

/-- Give an id the entry of a manifest, whatever entry it has. -/
def announce (isStatic : Bool) (st : ChunkStore) (id : ChunkId) : ChunkStore :=
  st.setLineage (st.setEntry id (manifestEntry isStatic))

def pointStatic (st : ChunkStore) (e : (EntityPath × ComponentIdentifier) × ChunkId) : ChunkStore :=
  { st with staticChunkIdsPerEntity := AList.insert e.1 e.2 st.staticChunkIdsPerEntity }

/-- List an id under the range of one component, in the index without components too. -/
def listEntry (st : ChunkStore)
    (e : (EntityPath × Timeline × ComponentIdentifier × ChunkId) × DlrManifestTemporalMapEntry) :
    ChunkStore :=
  let (entity, timeline, component, id) := e.1
  { st with
    temporalChunkIdsPerEntityPerComponent :=
      TimeIndex.insertAll st.temporalChunkIdsPerEntityPerComponent
        [((entity, timeline.name, component), e.2.timeRange)] id
    temporalChunkIdsPerEntity :=
      TimeIndex.insertAll st.temporalChunkIdsPerEntity [((entity, timeline.name), e.2.timeRange)] id }

/-- Make the chunks of a manifest known: their lineage, and where queries find them. -/
def insertDlrManifest (st : ChunkStore) (manifest : DlrManifest) : ChunkStore × List ChunkStoreDiff :=
  let st := (Assoc.values manifest.staticMap).foldl (announce true) st
  let st := (Assoc.toList manifest.staticMap).foldl pointStatic st
  let st := ((Assoc.toList manifest.temporalMap).map fun e => e.1.2.2.2).foldl (announce false) st
  let st := (Assoc.toList manifest.temporalMap).foldl listEntry st
  (st, [.virtualAddition manifest])

/-! ## Electing a candidate for compaction -/

/-- Whether a size and a row count are within the thresholds of compaction. -/
def belowThresholds (cfg : ChunkSplitConfig) (totalBytes totalRows : Nat) (sorted : Bool) : Bool :=
  decide (totalBytes ≤ cfg.chunkMaxBytes) &&
    (if sorted then decide (totalRows ≤ cfg.chunkMaxRows)
     else decide (totalRows ≤ cfg.chunkMaxRowsIfUnsorted))

/-- What one sighting of a neighbour is worth: its rows, if the two can be compacted. -/
def candidatePoints (st : ChunkStore) (c : Chunk) (id : ChunkId) : Nat :=
  match st.physical id with
  | none => 0
  | some candidate =>
    if c.id = id then 0
    else if !c.concatenable candidate then 0
    else if st.descendsFromASplit id then 0
    else if belowThresholds st.config (c.sizeBytes + candidate.sizeBytes)
        (c.numRows + candidate.numRows) candidate.allTimelinesSorted then candidate.numRows
    else 0

def idsAt (s : OrdSet TimeAndId) (t : TimeInt) : List ChunkId :=
  (s.elems.filter fun p => decide ((ofLex p).1 = t)).map fun p => (ofLex p).2

/-- The neighbours of a range: the ids under the last start before it, under the first start after
it, and, worth two sightings, under its own start. -/
def neighbors (s : ChunkIdSetPerTime) (r : AbsoluteTimeRange) : List (ChunkId × Nat) :=
  let starts := s.perStartTime.elems.map fun p => (ofLex p).1
  let before := (starts.filter fun t => decide (t < r.min)).getLast?
  let after := (starts.filter fun t => decide (r.max.inc ≤ t)).head?
  (before.elim [] fun t => (idsAt s.perStartTime t).map fun id => (id, 1)) ++
    (after.elim [] fun t => (idsAt s.perStartTime t).map fun id => (id, 1)) ++
    (idsAt s.perStartTime r.min).map fun id => (id, 2)

/-- The points of every neighbour of a chunk. -/
def candidates (st : ChunkStore) (c : Chunk) : Assoc ChunkId Nat :=
  let sightings := c.componentRanges.flatMap fun e =>
    (st.temporalChunkIdsPerEntityPerComponent.lookup e.1).elim [] fun s => neighbors s e.2
  sightings.foldl (fun points e =>
    Assoc.upsert points e.1 0 (· + st.candidatePoints c e.1 * e.2)) ∅

/-- The neighbour with the most points, the hash order of the source deciding ties. -/
def findAndElectCompactionCandidate (env : Env) (st : ChunkStore) (c : Chunk) : Option Chunk :=
  if st.descendsFromASplit c.id then none
  else if !belowThresholds st.config c.sizeBytes c.numRows c.allTimelinesSorted then none
  else
    let byHash := (Assoc.toList (st.candidates c)).insertionSort
      fun a b => env.hashOrder a.1 ≤ env.hashOrder b.1
    let byPoints := (byHash.insertionSort fun a b => a.2 ≤ b.2).reverse
    (byPoints.filter fun e => decide (0 < e.2)).findSome? fun e => st.physical e.1

/-! ## Splitting -/

/-- One round of the splitting loop: split every piece once more. -/
def splitRound (env : Env) (st : ChunkStore) : Nat → List Chunk → List Chunk × Nat
  | k, [] => ([], k)
  | k, c :: chunks =>
    let pieces :=
      if st.descendsFromACompaction c.id then ([], k) else splitChunkIfNeeded env st.config k c
    let rest := splitRound env st pieces.2 chunks
    (pieces.1 ++ rest.1, rest.2)

/-- Split until a round yields nothing new. -/
def splitLoop (env : Env) (st : ChunkStore) : Nat → Nat → List Chunk → List Chunk × Nat
  | 0, k, chunks => (chunks, k)
  | fuel + 1, k, chunks =>
    let round := splitRound env st k chunks
    if round.1.length = chunks.length then round else splitLoop env st fuel round.2 round.1

def splitChunks (env : Env) (st : ChunkStore) (k : Nat) (c : Chunk) : List Chunk × Nat :=
  let first := splitChunkIfNeeded env st.config k c
  splitLoop env st c.numRows first.2 first.1

/-! ## The static branch -/

/-- The archetypes of named transforms, whose static data is kept in full. -/
def isTransformArchetype (archetype : Option String) : Bool :=
  archetype = some "dalaran.archetypes.Transform3D" || archetype = some "dalaran.archetypes.Pinhole"

/-- The loop state of the static branch: the static map and the chunks overwritten so far. -/
structure StaticUpdate where
  staticMap : Assoc (EntityPath × ComponentIdentifier) ChunkId
  overwritten : Assoc ChunkId RowId

/-- The row id that decides an overwrite: what `row_id_range_per_component` calls the maximum. -/
def staticRowId (st : ChunkStore) (id : ChunkId) (component : ComponentIdentifier) : RowId :=
  ((st.physical id).bind fun c => c.rowIdRangePerComponent.lookup component).elim 0 (·.2)

/-- Point one component of an entity at a new static chunk, if its row id is greater. -/
def updateStatic (st : ChunkStore) (c : Chunk) (u : StaticUpdate)
    (e : ComponentIdentifier × ComponentColumn) : StaticUpdate :=
  if e.2.listArray.validityIsEmpty then u
  else
    match c.rowIdRangePerComponent.lookup e.1 with
    | none => u
    | some (_, rowIdMax) =>
      match u.staticMap.lookup (c.entityPath, e.1) with
      | none => { u with staticMap := AList.insert (c.entityPath, e.1) c.id u.staticMap }
      | some cur =>
        if st.staticRowId cur e.1 < rowIdMax then
          { staticMap := AList.insert (c.entityPath, e.1) c.id u.staticMap
            overwritten :=
              match (st.physical cur).bind (·.minRowId) with
              | some curMin =>
                if isTransformArchetype e.2.archetype then u.overwritten
                else AList.insert cur curMin u.overwritten
              | none => u.overwritten }
        else u

/-- Remove an overwritten chunk that no component of the entity points at any more. -/
def removeOverwritten (e : EntityPath) (acc : ChunkStore × List ChunkStoreDiff)
    (overwritten : ChunkId × RowId) : ChunkStore × List ChunkStoreDiff :=
  let st := acc.1
  let (id, rowIdMin) := overwritten
  if (Assoc.toList st.staticChunkIdsPerEntity).any fun p => decide (p.1.1 = e ∧ p.2 = id) then acc
  else
    let st := st.eraseRowId rowIdMin id
    match st.physical id with
    | none => (st, acc.2)
    | some removed =>
      let st := (st.erasePhysical id).dropReference id
      ({ st with staticChunksStats := st.staticChunksStats - ChunkStoreChunkStats.fromChunk removed },
        acc.2 ++ [.deletion ⟨removed, .overwrite⟩])

/-- Keep the chunk with the most recent data for each component. -/
def insertStatic (st : ChunkStore) (c : Chunk) (lineage : ChunkDirectLineageReport) :
    ChunkStore × List ChunkStoreDiff :=
  let u := (Assoc.toList c.components).foldl (updateStatic st c) ⟨st.staticChunkIdsPerEntity, ∅⟩
  let st := { st with
    staticChunkIdsPerEntity := u.staticMap
    staticChunksStats := st.staticChunksStats + ChunkStoreChunkStats.fromChunk c }
  (Assoc.toList u.overwritten).foldl (removeOverwritten c.entityPath) (st, [.addition c c lineage])

/-! ## The temporal branch -/

/-- List a chunk in both temporal indices, under the ranges of its components and its timelines. -/
def indexChunk (st : ChunkStore) (c : Chunk) : ChunkStore :=
  { st with
    temporalChunkIdsPerEntityPerComponent :=
      TimeIndex.insertAll st.temporalChunkIdsPerEntityPerComponent c.componentRanges c.id
    temporalChunkIdsPerEntity :=
      TimeIndex.insertAll st.temporalChunkIdsPerEntity c.timelineRanges c.id
    temporalPhysicalChunksStats :=
      st.temporalPhysicalChunksStats + ChunkStoreChunkStats.fromChunk c }

/-- The sources of a compaction, in ascending id order. -/
def compactionSources (c elected : Chunk) : List Chunk :=
  if c.id < elected.id then [c, elected] else if elected.id < c.id then [elected, c] else [elected]

/-- Give an id a lineage entry, unless it has one. -/
def ensureLineage (st : ChunkStore) (id : ChunkId) (lineage : ChunkDirectLineage) : ChunkStore :=
  st.setLineage (st.insertLineageIfMissing id lineage)

/-- Remember which chunk some sources went into. -/
def recordLeaky (st : ChunkStore) (sources : List ChunkId) (compacted : ChunkId) : ChunkStore :=
  st.setLineage { st.toLineageDroppingCtx with
    leakyCompactions :=
      sources.foldl (fun leaky source => AList.insert source compacted leaky) st.leakyCompactions }

def recordSources (st : ChunkStore) (c elected compacted : Chunk) : ChunkStore :=
  let sources := (compactionSources c elected).map Chunk.id
  (st.recordLeaky sources compacted.id).ensureLineage compacted.id (.compactedFrom sources)

/-- Record a compaction, then remove the chunk that was compacted away. -/
def recordCompaction (st : ChunkStore) (c elected compacted : Chunk) : ChunkStore :=
  ((st.recordSources c elected compacted).removeChunksDeep [elected] .compaction).1

/-- Index a chunk, compacted with an elected neighbour if there is one. -/
def insertTemporal (env : Env) (k : Nat) (st : ChunkStore) (c : Chunk)
    (lineage : ChunkDirectLineageReport) :
    ChunkStore × Except ChunkStoreError (Chunk × List ChunkStoreDiff) :=
  match findAndElectCompactionCandidate env st c with
  | none => (st.indexChunk c, .ok (c, [.addition c c lineage]))
  | some elected =>
    match elected.concatAndSort env k c with
    | .error e => (st, .error (.chunk e))
    | .ok (compacted, _) =>
      (((st.indexChunk compacted).recordCompaction c elected compacted), .ok (compacted,
        [.addition c compacted (.compactedFrom (compactionSources c elected))]))

/-! ## `insert_chunk` -/

/-- Store a chunk physically: the chunk itself, its physical reference, its smallest row id. -/
def storePhysical (st : ChunkStore) (c : Chunk) : ChunkStore :=
  let st := st.setLineage (st.addReference c.id)
  { st with
    physicalChunksPerChunkId := AList.insert c.id c st.physicalChunksPerChunkId
    physicalChunkIdsPerMinRowId :=
      match c.minRowId with
      | some rowId => st.physicalChunkIdsPerMinRowId.insert (toLex (rowId, c.id))
      | none => st.physicalChunkIdsPerMinRowId }

/-- The early returns: nothing to do, or nothing that can be done. -/
def earlyReturn (st : ChunkStore) (c : Chunk) : Option (Except ChunkStoreError Unit) :=
  if c.isEmpty then some (.ok ())
  else if c.components.entries.isEmpty then some (.ok ())
  else if st.IsPhysical c.id then some (.ok ())
  else if !c.isSorted then some (.error .unsortedChunk)
  else if st.leakyChainIsLive c.id then some (.ok ())
  else none

def isRootFromManifest (st : ChunkStore) (id : ChunkId) : Bool :=
  match st.directLineage id with
  | some (.rootFromManifest _) => true
  | _ => false

/-- Remove the entries a manifest made for the chunk, then the pieces an earlier insertion left. -/
def cleanUp (st : ChunkStore) (c : Chunk) : ChunkStore × List ChunkStoreDiffDeletion :=
  let first :=
    if st.isRootFromManifest c.id then st.removeChunksDeep [c] .virtualToPhysicalReplacement
    else (st, [])
  match first.1.danglingSplits.lookup c.id with
  | none => first
  | some pieces =>
    let st := first.1.setLineage { first.1.toLineageDroppingCtx with
      danglingSplits := AList.erase c.id first.1.danglingSplits }
    let second := st.removeChunksDeep (pieces.filterMap st.physical) .danglingSplitCleanup
    (second.1, first.2 ++ second.2)

def maySplit (st : ChunkStore) (c : Chunk) : Bool :=
  !c.isStatic && !st.descendsFromASplit c.id && !st.descendsFromACompaction c.id

def insertWhole (env : Env) (k : Nat) (st : ChunkStore) (c : Chunk)
    (lineage : ChunkDirectLineageReport) : ChunkStore × Except ChunkStoreError (List ChunkStoreDiff) :=
  if c.isStatic then
    let inserted := st.insertStatic c lineage
    (inserted.1.storePhysical c, .ok inserted.2)
  else
    match insertTemporal env k st c lineage with
    | (st, .error e) => (st, .error e)
    | (st, .ok (stored, diffs)) => (st.storePhysical stored, .ok diffs)

/-- Insert the pieces of a split one after the other, stopping at the first error. No id is drawn
below a split: a piece is neither split again nor compacted. -/
def insertPieces (c : Chunk)
    (insert : ChunkStore → Chunk → ChunkDirectLineageReport →
      ChunkStore × Except ChunkStoreError (List ChunkStoreDiff))
    (pieces : List Chunk) :
    ChunkStore → List Chunk → ChunkStore × Except ChunkStoreError (List ChunkStoreDiff)
  | st, [] => (st, .ok [])
  | st, p :: ps =>
    match insert st p (.splitFrom c (pieces.filter fun q => q.id ≠ p.id)) with
    | (st, .error e) => (st, .error e)
    | (st, .ok diffs) =>
      match insertPieces c insert pieces st ps with
      | (st, .error e) => (st, .error e)
      | (st, .ok rest) => (st, .ok (diffs.map (ChunkStoreDiff.withChunkBeforeProcessing c) ++ rest))

/-- Remember the pieces of a chunk before they are inserted. -/
def recordSplit (st : ChunkStore) (c : Chunk) (pieces : List Chunk) : ChunkStore :=
  st.setLineage { st.toLineageDroppingCtx with
    danglingSplits := AList.insert c.id (pieces.map (·.id)) st.danglingSplits
    splitOnIngest := st.splitOnIngest.insert c.id }

def prependDeletions (deletions : List ChunkStoreDiffDeletion)
    (result : ChunkStore × Except ChunkStoreError (List ChunkStoreDiff)) :
    ChunkStore × Except ChunkStoreError (List ChunkStoreDiff) :=
  (result.1, result.2.map fun diffs => deletions.map ChunkStoreDiff.deletion ++ diffs)

/-- `insert_chunk_impl`, recursing into the pieces of a split. -/
def insertChunkImpl (env : Env) : Nat → Nat → ChunkStore → Chunk → ChunkDirectLineageReport →
    ChunkStore × Except ChunkStoreError (List ChunkStoreDiff)
  | 0, _, st, _, _ => (st, .ok [])
  | fuel + 1, k, st, c, lineage =>
    match st.earlyReturn c with
    | some result => (st, result.map fun _ => [])
    | none =>
      let cleaned := st.cleanUp c
      let st := cleaned.1.ensureLineage c.id lineage.toLineage
      let split : List Chunk × Nat := if st.maySplit c then splitChunks env st k c else ([c], k)
      prependDeletions cleaned.2 <|
        if 1 < split.1.length then
          insertPieces c (insertChunkImpl env fuel split.2) split.1 (st.recordSplit c split.1) split.1
        else insertWhole env split.2 st c lineage

def insertChunk (env : Env) (st : ChunkStore) (c : Chunk) :
    ChunkStore × Except ChunkStoreError (List ChunkStoreDiff) :=
  if !st.isRootChunk c.id then (st, .ok [])
  else insertChunkImpl env (c.numRows + 1) 0 st c .volatile

end ChunkStore

end Dalaran
