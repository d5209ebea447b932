import Dalaran.Base.Walk
import Dalaran.Base.Worklist
import Dalaran.Store.State

/-
  Lineage: where chunks come from, and how long the store remembers it
  (`lineage.rs`, and the lineage helpers of `writes.rs`).

  The three recursions of the source are bounded here: the walk along
  `leaky_compactions` and the walk up split sources by the number of entries of
  the map they follow, `drop_lineage_reference` by a potential that every step
  of its worklist lowers (`dropFuel`).

  Correspondence (Rust ↔ Lean):
    `descends_from_a_split` (release build) ↔ `descendsFromASplit`
    `drop_lineage_reference`, its `Op` ↔ `dropLineageReference`, `LineageOp`
    the `leaky_compactions` loop of `insert_chunk_impl` ↔ `leakyChainIsLive`
-/

namespace Dalaran

namespace LineageDroppingCtx

variable (ctx : LineageDroppingCtx)

def directLineage (id : ChunkId) : Option ChunkDirectLineage :=
  (ctx.chunksLineage.lookup id).map (·.lineage)

/-- An id without lineage, out of a manifest, or volatile. -/
def isRootChunk (id : ChunkId) : Bool :=
  match ctx.directLineage id with
  | some (.splitFrom ..) => false
  | some (.compactedFrom _) => false
  | _ => true

def descendsFromManifest (id : ChunkId) : Bool :=
  (ctx.chunksLineage.lookup id).any (·.descendsFromManifest)

/-- Release builds do not recurse: no lineage mixes splits and compactions. -/
def descendsFromASplit (id : ChunkId) : Bool :=
  match ctx.directLineage id with
  | some (.splitFrom ..) => true
  | _ => false

def descendsFromACompactionWithin : Nat → ChunkId → Bool
  | 0, _ => false
  | fuel + 1, id =>
    match ctx.directLineage id with
    | some (.splitFrom source _) => descendsFromACompactionWithin fuel source
    | some (.compactedFrom _) => true
    | _ => false

def descendsFromACompaction (id : ChunkId) : Bool :=
  ctx.descendsFromACompactionWithin (ctx.chunksLineage.entries.length + 1) id

def setEntry (id : ChunkId) (l : TrackedDirectChunkLineage) : LineageDroppingCtx :=
  { ctx with chunksLineage := AList.insert id l ctx.chunksLineage }

def eraseEntry (id : ChunkId) : LineageDroppingCtx where
  chunksLineage := AList.erase id ctx.chunksLineage
  leakyCompactions := AList.erase id ctx.leakyCompactions
  splitOnIngest := ctx.splitOnIngest.erase id
  danglingSplits := AList.erase id ctx.danglingSplits

/-! ## Taking references -/

def addReference (id : ChunkId) : LineageDroppingCtx :=
  { ctx with chunksLineage := Assoc.modify ctx.chunksLineage id fun l =>
      { l with refCount := l.refCount + 1 } }

def lineageDescendsFromManifest : ChunkDirectLineage → Bool
  | .splitFrom source _ => ctx.descendsFromManifest source
  | .compactedFrom sources => sources.any ctx.descendsFromManifest
  | .rootFromManifest _ => true
  | .volatile => false

def insertLineageIfMissing (id : ChunkId) (lineage : ChunkDirectLineage) : LineageDroppingCtx :=
  match ctx.chunksLineage.lookup id with
  | some _ => ctx
  | none =>
    let entry : TrackedDirectChunkLineage :=
      { lineage := lineage
        refCount := 0
        descendsFromManifest := ctx.lineageDescendsFromManifest lineage }
    lineage.referencedChunks.foldl addReference (ctx.setEntry id entry)

/-! ## Dropping references -/

inductive LineageOp where
  | dropRef (id : ChunkId)
  | remove (id : ChunkId)
  deriving DecidableEq

def isReferenced (id : ChunkId) : Bool := (ctx.chunksLineage.lookup id).any fun l => decide (0 < l.refCount)

def lose (l : TrackedDirectChunkLineage) : TrackedDirectChunkLineage :=
  { l with refCount := l.refCount - 1 }

/-- One step of `drop_lineage_reference`. The pushed operations come back top of the stack first. -/
def dropStep (op : LineageOp) : LineageDroppingCtx × List LineageOp :=
  match op with
  | .dropRef id =>
    match ctx.chunksLineage.lookup id with
    | none => (ctx, [])
    | some l =>
      let l := lose l
      let ctx := ctx.setEntry id l
      if l.descendsFromManifest || decide (0 < l.refCount) then (ctx, [])
      else if l.lineage.siblings.any ctx.isReferenced then (ctx, [])
      else (ctx, .remove id :: (l.lineage.siblings.map LineageOp.remove).reverse)
  | .remove id =>
    match ctx.chunksLineage.lookup id with
    | none => (ctx, [])
    | some l => (ctx.eraseEntry id, (l.lineage.referencedChunks.map LineageOp.dropRef).reverse)

/-- What an operation can still cost: a `dropRef` pushes at most one removal per sibling and one
more, a removal is paid for by the references of the entry it erases. -/
def opWeight : Nat :=
  2 + Assoc.sum ctx.chunksLineage fun _ l => l.lineage.siblings.length

/-- Steps enough to drain the worklist. -/
def dropFuel : Nat :=
  ctx.opWeight * (Assoc.sum ctx.chunksLineage (fun _ l => l.lineage.referencedChunks.length) + 1)

def dropLineageReference (id : ChunkId) : LineageDroppingCtx :=
  (Worklist.run dropStep ctx.dropFuel ctx [.dropRef id]).1

end LineageDroppingCtx

namespace ChunkStore

/-- Follow `leaky_compactions` until it reaches a physical chunk. -/
def leakyChainIsLive (st : ChunkStore) (id : ChunkId) : Bool :=
  Walk.reaches st.leakyCompactions (fun id => decide (st.IsPhysical id))
    (st.leakyCompactions.entries.length + 1) id

end ChunkStore

end Dalaran
