import Dalaran.Store.Insert

/-
  Garbage collection (`gc.rs`).

  The mark phase lists the chunks to drop, furthest from a time cursor first if
  there is one and in RowId order after that; the sweep phase removes roots
  shallowly and all other chunks deeply, or all of them deeply on request.

  The clock is an oracle: `GcClock` says of each marked and each swept chunk, by
  its number, whether the time budget is used up after it. A target given as a
  fraction is the function of the total size that the floating point product
  rounds to.
-/

namespace Dalaran

inductive GarbageCollectionTarget where
  | dropAtLeastBytes (n : Nat)
  | dropAtLeastFraction (ofTotal : Nat → Nat)
  | everything

/-- How many bytes to drop out of a total. -/
def GarbageCollectionTarget.targetBytesFromSize (target : GarbageCollectionTarget) (total : Nat) : Nat :=
  match target with
  | .dropAtLeastBytes n => n
  | .dropAtLeastFraction ofTotal => ofTotal total
  | .everything => 18446744073709551615

structure GarbageCollectionOptions where
  target : GarbageCollectionTarget
  protectLatest : Nat
  protectedTimeRanges : Assoc TimelineName AbsoluteTimeRange
  protectedChunks : List ChunkId
  furthestFrom : Option (TimelineName × TimeInt)
  performDeepDeletions : Bool

/-- Whether the budget is used up after the `n`-th chunk of the mark and of the sweep phase. -/
structure GcClock where
  markExhausted : Nat → Bool
  sweepExhausted : Nat → Bool

def GarbageCollectionOptions.isChunkProtected (options : GarbageCollectionOptions) (c : Chunk) : Bool :=
  options.protectedChunks.contains c.id ||
    (Assoc.toList options.protectedTimeRanges).any fun (timeline, r) =>
      (c.timelines.lookup timeline).any fun tc => tc.timeRange.intersects r

namespace ChunkStore

/-- The distance of the closest time of a column, the two neighbours of the cursor when sorted. -/
def minDistance (tc : TimeColumn) (time : TimeInt) : Option Nat :=
  if tc.isSorted then
    let pivot := (tc.times.takeWhile fun t => decide (t < time.asI64)).length
    let closest := [tc.times[pivot - 1]?, tc.times[pivot]?].filterMap id
    (closest.map fun t => t.absDiff time.asI64).min?
  else (tc.times.map fun t => (TimeInt.newTemporal t).asI64.absDiff time.asI64).min?

/-- The physical chunks on a timeline, the furthest from the cursor first. -/
def findTemporalChunksFurthestFrom (st : ChunkStore) (timeline : TimelineName) (time : TimeInt) : List Chunk :=
  let byId := (Assoc.toList st.physicalChunksPerChunkId).insertionSort fun a b => a.1 ≤ b.1
  let distances := byId.filterMap fun e =>
    (e.2.timelines.lookup timeline).bind fun tc => (minDistance tc time).map fun d => (e.2, d)
  (distances.insertionSort fun a b => b.2 ≤ a.2).map (·.1)

/-- The ids of a start or end map, latest time first, ids of one time ascending. -/
def idsLatestFirst (s : OrdSet TimeAndId) : List ChunkId :=
  (s.elems.map fun p => (ofLex p).1).dedup.reverse.flatMap (idsAt s)

/-- The last physical ids of every index entry, by start and then by end. -/
def findAllProtectedPhysicalChunkIds (st : ChunkStore) (targetCount : Nat) : List ChunkId :=
  if targetCount = 0 then []
  else
    (Assoc.values st.temporalChunkIdsPerEntityPerComponent).flatMap fun s =>
      (idsLatestFirst s.perStartTime ++ idsLatestFirst s.perEndTime)
        |>.filter (fun id => decide (st.IsPhysical id)) |>.take targetCount

/-- Mark chunks until the target is reached: the marked chunks, and the bytes still to drop. -/
def markUntil (stop : Nat → Bool) : Nat → Nat → List Chunk → List Chunk × Option Nat
  | _, remaining, [] => ([], some remaining)
  | n, remaining, c :: chunks =>
    if stop n then ([c], none)
    else if remaining ≤ c.sizeBytes then ([c], none)
    else
      let rest := markUntil stop (n + 1) (remaining - c.sizeBytes) chunks
      (c :: rest.1, rest.2)

/-- The unprotected temporal chunks in RowId order. -/
def chunksInPriorityOrder (st : ChunkStore) (options : GarbageCollectionOptions) : List Chunk :=
  let protectedIds := st.findAllProtectedPhysicalChunkIds options.protectLatest
  (st.physicalChunkIdsPerMinRowId.elems.map fun p => (ofLex p).2)
    |>.filter (fun id => !protectedIds.contains id)
    |>.filterMap st.physical
    |>.filter (fun c => !c.isStatic)
    |>.filter (fun c => !options.isChunkProtected c)

def gcFindCandidates (st : ChunkStore) (options : GarbageCollectionOptions) (clock : GcClock)
    (targetBytesToDrop : Nat) : List Chunk :=
  if targetBytesToDrop = 0 then []
  else
    let furthest :=
      match options.furthestFrom with
      | none => ([], some targetBytesToDrop)
      | some (timeline, time) =>
        markUntil (fun _ => false) 0 targetBytesToDrop
          ((st.findTemporalChunksFurthestFrom timeline time).filter fun c =>
            !options.isChunkProtected c)
    match furthest.2 with
    | none => furthest.1
    | some remaining =>
      furthest.1 ++ (markUntil clock.markExhausted 0 remaining (st.chunksInPriorityOrder options)).1

def gcDropAtLeastNumBytes (st : ChunkStore) (options : GarbageCollectionOptions) (clock : GcClock)
    (targetBytesToDrop : Nat) : ChunkStore × List ChunkStoreDiffDeletion :=
  let chunks := st.gcFindCandidates options clock targetBytesToDrop
  let deep :=
    if options.performDeepDeletions then chunks else chunks.filter fun c => !st.isRootChunk c.id
  let shallow := if options.performDeepDeletions then [] else chunks.filter fun c => st.isRootChunk c.id
  let dels1 := st.removeChunksShallow shallow (some clock.sweepExhausted) .garbageCollection
  let dels2 := dels1.1.removeChunksDeep deep .garbageCollection
  (dels2.1, dels1.2 ++ dels2.2)

def gc (st : ChunkStore) (options : GarbageCollectionOptions) (clock : GcClock) :
    ChunkStore × List ChunkStoreDiff :=
  let total := (st.staticChunksStats + st.temporalPhysicalChunksStats).totalSizeBytes.toNat
  let result := st.gcDropAtLeastNumBytes options clock (options.target.targetBytesFromSize total)
  (result.1, result.2.map ChunkStoreDiff.deletion)

end ChunkStore

end Dalaran
