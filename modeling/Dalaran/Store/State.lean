import Dalaran.Chunk.Merge
import Dalaran.Store.Index

/-
  The state of a chunk store (`store.rs`, `lineage.rs`, `stats.rs`, `events.rs`).

  Left out of the state, since no modelled function reads them: the schema, the
  tracker of queried ids, the insert, gc and event counters, and the store id.
  The maps the source nests (entity, then timeline, then component) are keyed by
  the tuple of their keys. `ref_count` is a `u32` in the source and a `Nat` here;
  the statistics are `u64`s and wrap, as release builds do.

  Correspondence (Rust ↔ Lean):
    `LineageDroppingCtx` ↔ `LineageDroppingCtx`, the part of the store about lineage
-/

namespace Dalaran

/-! ## Lineage -/

inductive ChunkDirectLineage where
  | splitFrom (source : ChunkId) (siblings : List ChunkId)
  | compactedFrom (sources : List ChunkId)
  | rootFromManifest (isStatic : Bool)
  | volatile
  deriving DecidableEq

/-- The chunks whose lineage entry an entry keeps alive. Siblings do not count. -/
def ChunkDirectLineage.referencedChunks : ChunkDirectLineage → List ChunkId
  | .splitFrom source _ => [source]
  | .compactedFrom sources => sources
  | .rootFromManifest _ => []
  | .volatile => []

def ChunkDirectLineage.siblings : ChunkDirectLineage → List ChunkId
  | .splitFrom _ siblings => siblings
  | _ => []

structure TrackedDirectChunkLineage where
  lineage : ChunkDirectLineage
  refCount : Nat
  descendsFromManifest : Bool
  deriving DecidableEq

/-- `ChunkDirectLineage` with the chunks in hand; compaction sources in ascending id order. -/
inductive ChunkDirectLineageReport where
  | splitFrom (source : Chunk) (siblings : List Chunk)
  | compactedFrom (sources : List Chunk)
  | rootFromManifest (isStatic : Bool)
  | volatile

def ChunkDirectLineageReport.toLineage : ChunkDirectLineageReport → ChunkDirectLineage
  | .splitFrom source siblings => .splitFrom source.id (siblings.map (·.id))
  | .compactedFrom sources => .compactedFrom (sources.map (·.id))
  | .rootFromManifest isStatic => .rootFromManifest isStatic
  | .volatile => .volatile

/-! ## Statistics and events -/

structure ChunkStoreChunkStats where
  numChunks : UInt64
  totalSizeBytes : UInt64
  numRows : UInt64
  numEvents : UInt64
  deriving DecidableEq

namespace ChunkStoreChunkStats

instance : Zero ChunkStoreChunkStats := ⟨⟨0, 0, 0, 0⟩⟩

instance : Add ChunkStoreChunkStats :=
  ⟨fun a b => ⟨a.numChunks + b.numChunks, a.totalSizeBytes + b.totalSizeBytes,
    a.numRows + b.numRows, a.numEvents + b.numEvents⟩⟩

instance : Sub ChunkStoreChunkStats :=
  ⟨fun a b => ⟨a.numChunks - b.numChunks, a.totalSizeBytes - b.totalSizeBytes,
    a.numRows - b.numRows, a.numEvents - b.numEvents⟩⟩

def fromChunk (c : Chunk) : ChunkStoreChunkStats where
  numChunks := 1
  totalSizeBytes := UInt64.ofNat c.sizeBytes
  numRows := UInt64.ofNat c.numRows
  numEvents := UInt64.ofNat c.numEventsCumulative

end ChunkStoreChunkStats

inductive ChunkDeletionReason where
  | garbageCollection
  | virtualToPhysicalReplacement
  | danglingSplitCleanup
  | compaction
  | overwrite
  | explicitDrop
  deriving DecidableEq

structure DlrManifestTemporalMapEntry where
  timeRange : AbsoluteTimeRange
  numRows : Nat

/-- `RrdManifest`: the static chunk of each component of an entity, and the range of each chunk per
entity, timeline and component. -/
structure DlrManifest where
  staticMap : Assoc (EntityPath × ComponentIdentifier) ChunkId
  temporalMap : Assoc (EntityPath × Timeline × ComponentIdentifier × ChunkId)
    DlrManifestTemporalMapEntry

structure ChunkStoreDiffDeletion where
  chunk : Chunk
  reason : ChunkDeletionReason

inductive ChunkStoreDiff where
  | addition (chunkBeforeProcessing chunkAfterProcessing : Chunk)
      (directLineage : ChunkDirectLineageReport)
  | virtualAddition (manifest : DlrManifest)
  | deletion (deletion : ChunkStoreDiffDeletion)

/-- Name the chunk a piece was split from as the chunk before processing. -/
def ChunkStoreDiff.withChunkBeforeProcessing (c : Chunk) : ChunkStoreDiff → ChunkStoreDiff
  | .addition _ after lineage => .addition c after lineage
  | diff => diff

inductive ChunkStoreError where
  | unsortedChunk
  | chunk (error : ChunkError)

/-! ## The store -/

/-- The part of the store about lineage. -/
structure LineageDroppingCtx where
  chunksLineage : Assoc ChunkId TrackedDirectChunkLineage
  leakyCompactions : Assoc ChunkId ChunkId
  splitOnIngest : OrdSet ChunkId
  danglingSplits : Assoc ChunkId (List ChunkId)

structure ChunkStore extends LineageDroppingCtx where
  config : ChunkSplitConfig
  physicalChunksPerChunkId : Assoc ChunkId Chunk
  physicalChunkIdsPerMinRowId : OrdSet (RowId ×ₗ ChunkId)
  temporalChunkIdsPerEntityPerComponent : TimeIndex (EntityPath × TimelineName × ComponentIdentifier)
  temporalChunkIdsPerEntity : TimeIndex (EntityPath × TimelineName)
  temporalPhysicalChunksStats : ChunkStoreChunkStats
  staticChunkIdsPerEntity : Assoc (EntityPath × ComponentIdentifier) ChunkId
  staticChunksStats : ChunkStoreChunkStats

def ChunkStore.new (config : ChunkSplitConfig) : ChunkStore where
  chunksLineage := ∅
  leakyCompactions := ∅
  splitOnIngest := OrdSet.empty
  danglingSplits := ∅
  config := config
  physicalChunksPerChunkId := ∅
  physicalChunkIdsPerMinRowId := OrdSet.empty
  temporalChunkIdsPerEntityPerComponent := ∅
  temporalChunkIdsPerEntity := ∅
  temporalPhysicalChunksStats := 0
  staticChunkIdsPerEntity := ∅
  staticChunksStats := 0

namespace ChunkStore

def physical (st : ChunkStore) (id : ChunkId) : Option Chunk := st.physicalChunksPerChunkId.lookup id

def IsPhysical (st : ChunkStore) (id : ChunkId) : Prop := (st.physical id).isSome

instance (st : ChunkStore) (id : ChunkId) : Decidable (st.IsPhysical id) :=
  inferInstanceAs (Decidable (_ = true))

def setLineage (st : ChunkStore) (ctx : LineageDroppingCtx) : ChunkStore :=
  { st with toLineageDroppingCtx := ctx }

end ChunkStore

/-! ## One index out of two -/

/-- A place in one of the two temporal indices where an id can be listed. -/
inductive Slot where
  | component (entity : EntityPath) (timeline : TimelineName) (component : ComponentIdentifier)
      (edge : Edge) (time : TimeInt)
  | timeline (entity : EntityPath) (timeline : TimelineName) (edge : Edge) (time : TimeInt)
  deriving DecidableEq

def Slot.entity : Slot → EntityPath
  | .component e .. => e
  | .timeline e .. => e

def ChunkStore.ListedAt (st : ChunkStore) (id : ChunkId) : Slot → Prop
  | .component e tl co edge t =>
    TimeIndex.Listed st.temporalChunkIdsPerEntityPerComponent (e, tl, co) edge t id
  | .timeline e tl edge t => TimeIndex.Listed st.temporalChunkIdsPerEntity (e, tl) edge t id

instance (st : ChunkStore) (id : ChunkId) (s : Slot) : Decidable (st.ListedAt id s) := by
  cases s <;> (unfold ChunkStore.ListedAt; infer_instance)

/-- The slots a chunk should be listed at: the ends of each component's range on each timeline, and
the ends of each timeline's range. -/
def Chunk.OwnSlot (c : Chunk) : Slot → Prop
  | .component e tl co edge t =>
    e = c.entityPath ∧ ∃ r, c.componentRange tl co = some r ∧ t = r.edge edge
  | .timeline e tl edge t =>
    e = c.entityPath ∧ ∃ tc, c.timelines.lookup tl = some tc ∧ t = tc.timeRange.edge edge

instance (c : Chunk) (s : Slot) : Decidable (c.OwnSlot s) :=
  match s with
  | .component e tl co edge t =>
    decidable_of_iff (e = c.entityPath ∧ (c.componentRange tl co).any fun r => decide (t = r.edge edge))
      (by simp [Chunk.OwnSlot, Option.any_eq_true])
  | .timeline e tl edge t =>
    decidable_of_iff
      (e = c.entityPath ∧ (c.timelines.lookup tl).any fun tc => decide (t = tc.timeRange.edge edge))
      (by simp [Chunk.OwnSlot, Option.any_eq_true])

theorem Chunk.ownedBy_componentRanges {c : Chunk} {e : EntityPath} {tl : TimelineName}
    {co : ComponentIdentifier} {edge : Edge} {t : TimeInt} :
    TimeIndex.OwnedBy c.componentRanges (e, tl, co) edge t ↔ c.OwnSlot (.component e tl co edge t) := by
  unfold TimeIndex.OwnedBy Chunk.OwnSlot
  simp only [Chunk.mem_componentRanges, and_assoc, exists_and_left]

theorem Chunk.ownedBy_timelineRanges {c : Chunk} {e : EntityPath} {tl : TimelineName} {edge : Edge}
    {t : TimeInt} :
    TimeIndex.OwnedBy c.timelineRanges (e, tl) edge t ↔ c.OwnSlot (.timeline e tl edge t) := by
  unfold TimeIndex.OwnedBy Chunk.OwnSlot
  simp only [Chunk.mem_timelineRanges]
  constructor
  · rintro ⟨r, ⟨he, tc, htc, rfl⟩, ht⟩
    exact ⟨he, tc, htc, ht⟩
  · rintro ⟨he, tc, htc, ht⟩
    exact ⟨tc.timeRange, ⟨he, tc, htc, rfl⟩, ht⟩

end Dalaran
