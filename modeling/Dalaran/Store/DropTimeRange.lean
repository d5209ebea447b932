import Dalaran.Chunk.Slices
import Dalaran.Store.Run

/-
  Dropping a time range (`drop_time_range.rs`).

  Every physical chunk on the timeline that meets the range is removed. What it
  has before and after the range comes back: slices of the chunk, sorted by the
  timeline first if it is not, are sorted by row id again and inserted under new
  ids.

  The ids this function draws itself come from one `Env`; every insertion draws
  from its own. The `unwrap` of an insertion is its error here; sorted slices
  cause none (`dropTimeRange_balances` in `Store/EventBalance`).

  Correspondence (Rust ↔ Lean):
    the loop over the physical chunks ↔ `cutTimeRange`, `planDrop`, `dropPlan`
    the removals, the insertions ↔ `removeEach`, `insertSlices`
    `drop_time_range_shallow`, `drop_time_range_deep` ↔ `dropTimeRange`
-/

namespace Dalaran

open List

def AbsoluteTimeRange.containsRange (r other : AbsoluteTimeRange) : Bool :=
  decide (r.min ≤ other.min) && decide (other.max ≤ r.max)

namespace Chunk

/-- Whether a chunk is dropped for a range of a timeline, and the slices of it that stay. -/
def cutTimeRange (env : Env) (timeline : TimelineName) (dropRange : AbsoluteTimeRange) (k : Nat)
    (c : Chunk) : Bool × List Chunk × Nat :=
  match c.timelines.lookup timeline with
  | none => (false, [], k)
  | some tc =>
    if dropRange.containsRange tc.timeRange then (true, [], k)
    else if !dropRange.intersects tc.timeRange then (false, [], k)
    else
      let sorted := c.sortedByTimelineIfUnsorted env k timeline
      let times := (sorted.1.timelines.lookup timeline).elim [] (·.times)
      let numRows := sorted.1.numRows
      let minIdx := (times.takeWhile fun t => decide (t < dropRange.min.asI64)).length
      let maxIdx := (times.takeWhile fun t => decide (t ≤ dropRange.max.asI64)).length
      if minIdx < maxIdx then
        let id := env.newId sorted.2
        let before := if 0 < minIdx then
            ([sorted.1.rowSlicedShallow id (env.sizeBytes id) 0 minIdx], sorted.2 + 1)
          else ([], sorted.2)
        let id := env.newId before.2
        let after := if maxIdx < numRows then
            ([sorted.1.rowSlicedShallow id (env.sizeBytes id) maxIdx (numRows - maxIdx)], before.2 + 1)
          else ([], before.2)
        (true, before.1 ++ after.1, after.2)
      else (false, [], sorted.2)

end Chunk

namespace ChunkStore

/-- The chunks to drop, the slices that stay, and the number of ids used, over some chunks. -/
def planDrop (env : Env) (timeline : TimelineName) (dropRange : AbsoluteTimeRange) :
    Nat → List Chunk → List Chunk × List Chunk × Nat
  | k, [] => ([], [], k)
  | k, c :: chunks =>
    let cut := c.cutTimeRange env timeline dropRange k
    let rest := planDrop env timeline dropRange cut.2.2 chunks
    (if cut.1 then c :: rest.1 else rest.1, cut.2.1 ++ rest.2.1, rest.2.2)

def removeEach (deepRemoval : Bool) (reason : ChunkDeletionReason) :
    ChunkStore → List Chunk → ChunkStore × List ChunkStoreDiffDeletion
  | st, [] => (st, [])
  | st, c :: chunks =>
    let removed :=
      if deepRemoval then st.removeChunksDeep [c] reason else st.removeChunksShallow [c] none reason
    let rest := removeEach deepRemoval reason removed.1 chunks
    (rest.1, removed.2 ++ rest.2)

/-- Sort slices by row id again and insert them, stopping at an error. -/
def insertSlices (env : Env) (insertEnv : Nat → Env) :
    Nat → Nat → ChunkStore → List Chunk → ChunkStore × Except ChunkStoreError (List ChunkStoreDiff)
  | _, _, st, [] => (st, .ok [])
  | n, k, st, c :: chunks =>
    let sorted := c.sortByRowIdsIfNeeded env k
    match insertChunk (insertEnv n) st sorted.1 with
    | (st, .error e) => (st, .error e)
    | (st, .ok diffs) =>
      let rest := insertSlices env insertEnv (n + 1) sorted.2 st chunks
      (rest.1, rest.2.map fun more => diffs ++ more)

/-- What is to be dropped, and what is to come back, over the physical chunks in id order. -/
def dropPlan (env : Env) (st : ChunkStore) (timeline : TimelineName) (dropRange : AbsoluteTimeRange) :
    List Chunk × List Chunk × Nat :=
  planDrop env timeline dropRange 0
    (((Assoc.toList st.physicalChunksPerChunkId).insertionSort fun a b => a.1 ≤ b.1).map (·.2))

/-- Drop all rows within a range of a timeline. -/
def dropTimeRange (env : Env) (insertEnv : Nat → Env) (st : ChunkStore) (timeline : TimelineName)
    (dropRange : AbsoluteTimeRange) (deepRemoval : Bool) (reason : ChunkDeletionReason) :
    ChunkStore × Except ChunkStoreError (List ChunkStoreDiff) :=
  if dropRange.max < dropRange.min then (st, .ok [])
  else
    let plan := dropPlan env st timeline dropRange
    let removed := removeEach deepRemoval reason st plan.1
    let inserted := insertSlices env insertEnv 0 plan.2.2 removed.1 plan.2.1
    (inserted.1, inserted.2.map fun diffs => removed.2.map ChunkStoreDiff.deletion ++ diffs)

end ChunkStore

/-! ## Slices are well-formed -/

namespace Chunk

variable {c : Chunk} {env : Env} {k : Nat} {timeline : TimelineName}

theorem cutTimeRange_slices (hwf : c.WellFormed) (dropRange : AbsoluteTimeRange) :
    ∀ p ∈ (c.cutTimeRange env timeline dropRange k).2.1, (c.timelines.lookup timeline).isSome ∧
      ∃ id size index len, 0 < len ∧ index + len ≤ (c.sortedByTimelineIfUnsorted env k timeline).1.numRows ∧
        p = (c.sortedByTimelineIfUnsorted env k timeline).1.rowSlicedShallow id size index len := by
  have hsorted := @sortedByTimelineIfUnsorted_wf c env k timeline hwf
  intro p hp
  unfold cutTimeRange at hp
  split at hp
  · cases hp
  · rename_i htl
    refine ⟨by rw [htl]; rfl, ?_⟩
    split at hp
    · cases hp
    · split at hp
      · cases hp
      · dsimp only at hp
        split at hp
        · rename_i hlt
          have hmax : ∀ q : I64 → Bool, (((c.sortedByTimelineIfUnsorted env k timeline).1.timelines.lookup
              timeline).elim [] (·.times) |>.takeWhile q).length ≤
              (c.sortedByTimelineIfUnsorted env k timeline).1.numRows := by
            intro q
            refine (takeWhile_sublist _).length_le.trans ?_
            cases htc : (c.sortedByTimelineIfUnsorted env k timeline).1.timelines.lookup timeline with
            | none => exact Nat.zero_le _
            | some tc => exact (hsorted.times_length timeline tc htc).le
          rcases mem_append.mp hp with hp | hp
          · split at hp
            · rename_i hpos
              refine ⟨_, _, _, _, hpos, ?_, mem_singleton.mp hp⟩
              rw [Nat.zero_add]
              exact hmax _
            · cases hp
          · split at hp
            · rename_i hmore
              refine ⟨_, _, _, _, ?_, ?_, mem_singleton.mp hp⟩
              · omega
              · omega
            · cases hp
        · cases hp

theorem cutTimeRange_wf (hwf : c.WellFormed) (dropRange : AbsoluteTimeRange) :
    ∀ p ∈ (c.cutTimeRange env timeline dropRange k).2.1, p.WellFormed := by
  intro p hp
  obtain ⟨-, id, size, index, len, hpos, hle, rfl⟩ := cutTimeRange_slices hwf dropRange p hp
  exact rowSlicedShallow_wf_of_le (sortedByTimelineIfUnsorted_wf hwf) hpos hle id size

end Chunk

namespace ChunkStore

variable {st : ChunkStore} {env : Env} {timeline : TimelineName} {dropRange : AbsoluteTimeRange}

theorem planDrop_spec : ∀ {chunks : List Chunk} {k : Nat}, (∀ c ∈ chunks, c.WellFormed) →
    (planDrop env timeline dropRange k chunks).1.Sublist chunks ∧
      ∀ p ∈ (planDrop env timeline dropRange k chunks).2.1, p.WellFormed
  | [], _, _ => ⟨.slnil, fun _ hp => absurd hp not_mem_nil⟩
  | c :: chunks, k, h => by
    obtain ⟨ihsub, ihwf⟩ := @planDrop_spec chunks (c.cutTimeRange env timeline dropRange k).2.2
      fun d hd => h d (mem_cons_of_mem _ hd)
    unfold planDrop
    dsimp only
    refine ⟨?_, fun p hp => ?_⟩
    · split
      · exact ihsub.cons_cons c
      · exact ihsub.cons c
    · rcases mem_append.mp hp with hp | hp
      · exact Chunk.cutTimeRange_wf (h c mem_cons_self) dropRange p hp
      · exact ihwf p hp

end ChunkStore

end Dalaran
