import Mathlib.Algebra.Ring.Int.Defs
import Dalaran.Store.DeletionEvents
import Dalaran.Store.DropTimeRange
import Dalaran.Store.LeakyChains

/-
  Counting rows by events (`events.rs`).

  A subscriber that adds `delta()` times the rows of `delta_chunk()` over all
  events should end up with the rows of the physical chunks. `Balances` says
  that of a step: the events of the step account for the change. What a removal
  reports is what it evicts (`Evicts`), a compaction reports the new rows only,
  and a split its pieces.

  There are two exceptions, and a run that meets neither is balanced in every
  state (`eventRun_balanced`):
    1. The load of a chunk that a manifest announced deletes the chunk from the
       virtual indices first and reports a deletion, although nothing physical
       went.
    2. A collection that marks a chunk twice can report it twice.

  `SchemaAddition` events have no delta and are left out.

  Correspondence (Rust ↔ Lean):
    the calls that return events ↔ `Call`
-/

namespace Dalaran

open List Assoc LineageDroppingCtx ChunkStoreDiff

namespace ChunkStoreDiff

def delta : ChunkStoreDiff → Int
  | .addition .. => 1
  | .virtualAddition _ => 0
  | .deletion _ => -1

/-- The chunk a diff counts: what is new in an addition, what is gone in a deletion. -/
def deltaChunk : ChunkStoreDiff → Option Chunk
  | .addition before after lineage =>
    match lineage with
    | .compactedFrom _ => some before
    | .splitFrom _ _ => some after
    | _ => some before
  | .virtualAddition _ => none
  | .deletion del => some del.chunk

/-- What a diff says about the occurrences of a row id. -/
def rowDelta (rowId : RowId) (diff : ChunkStoreDiff) : Int :=
  diff.delta * (diff.deltaChunk.elim 0 fun c => (c.rowIds.count rowId : Int))

end ChunkStoreDiff

/-- What diffs say about the occurrences of a row id. -/
def eventBalance (diffs : List ChunkStoreDiff) (rowId : RowId) : Int :=
  (diffs.map (ChunkStoreDiff.rowDelta rowId)).sum

def rowCount (chunks : List Chunk) (rowId : RowId) : Nat := (chunks.map fun c => c.rowIds.count rowId).sum

theorem eventBalance_append (diffs more : List ChunkStoreDiff) (rowId : RowId) :
    eventBalance (diffs ++ more) rowId = eventBalance diffs rowId + eventBalance more rowId := by
  unfold eventBalance
  rw [map_append, sum_append]

theorem rowCount_append (chunks more : List Chunk) (rowId : RowId) :
    rowCount (chunks ++ more) rowId = rowCount chunks rowId + rowCount more rowId := by
  unfold rowCount
  rw [map_append, sum_append]

theorem rowCount_cons (c : Chunk) (chunks : List Chunk) (rowId : RowId) :
    rowCount (c :: chunks) rowId = c.rowIds.count rowId + rowCount chunks rowId := rfl

theorem rowCount_perm {chunks chunks' : List Chunk} (h : chunks.Perm chunks') (rowId : RowId) :
    rowCount chunks rowId = rowCount chunks' rowId := (h.map _).sum_eq

theorem eventBalance_deletions (chunks : List Chunk) (reason : ChunkDeletionReason) (rowId : RowId) :
    eventBalance (chunks.map fun c => .deletion ⟨c, reason⟩) rowId = -(rowCount chunks rowId : Int) := by
  induction chunks with
  | nil => rfl
  | cons c chunks ih =>
    have hcons : eventBalance ((c :: chunks).map fun c => .deletion ⟨c, reason⟩) rowId =
        -(c.rowIds.count rowId : Int) +
          eventBalance (chunks.map fun c => .deletion ⟨c, reason⟩) rowId := by
      unfold eventBalance
      simp [rowDelta, delta, deltaChunk]
    rw [hcons, ih, rowCount_cons]
    omega

/-! ## Free keys -/

namespace TimeIndex

variable {K : Type} [DecidableEq K]

/-- No id at all is listed under the ends of some ranges. -/
def KeysFree (index : TimeIndex K) (ranges : List (K × AbsoluteTimeRange)) : Prop :=
  ∀ e ∈ ranges, ∀ s, index.lookup e.1 = some s →
    ChunkIdSetPerTime.occupied s.perStartTime e.2.min = false ∧
      ChunkIdSetPerTime.occupied s.perEndTime e.2.max = false

theorem occupied_erase {ids : OrdSet TimeAndId} {t : TimeInt} {p : TimeAndId}
    (h : ChunkIdSetPerTime.occupied ids t = false) : ChunkIdSetPerTime.occupied (ids.erase p) t = false := by
  unfold ChunkIdSetPerTime.occupied at h ⊢
  rw [any_eq_false] at h ⊢
  exact fun q hq => h q (OrdSet.mem_erase.mp (OrdSet.mem_def.mpr hq)).2

theorem KeysFree.removeOne {index : TimeIndex K} {ranges : List (K × AbsoluteTimeRange)}
    (h : KeysFree index ranges) (key : K) (r : AbsoluteTimeRange) (id : ChunkId) :
    KeysFree (removeOne index key r id).1 ranges := by
  intro e he s hs
  unfold TimeIndex.removeOne at hs
  cases hkey : index.lookup key with
  | none =>
    rw [hkey] at hs
    exact h e he s hs
  | some s₀ =>
    rw [hkey] at hs
    dsimp only at hs
    rw [lookup_insert_ite] at hs
    split at hs
    · rename_i heq
      rw [← Option.some.inj hs]
      obtain ⟨hstart, hend⟩ := h e he s₀ (heq ▸ hkey)
      exact ⟨occupied_erase hstart, occupied_erase hend⟩
    · exact h e he s hs

theorem removeAll_of_keysFree {index : TimeIndex K} {ranges : List (K × AbsoluteTimeRange)} {id : ChunkId}
    (h : KeysFree index ranges) : (removeAll index ranges id).2 = false := by
  have hfold : ∀ (ranges : List (K × AbsoluteTimeRange)) (acc : TimeIndex K × Bool), acc.2 = false →
      KeysFree acc.1 ranges → (ranges.foldl (fun acc e =>
        ((removeOne acc.1 e.1 e.2 id).1, acc.2 || (removeOne acc.1 e.1 e.2 id).2)) acc).2 = false := by
    intro ranges
    induction ranges with
    | nil => exact fun acc hacc _ => hacc
    | cons e ranges ih =>
      intro acc hacc hfree
      refine ih _ ?_ fun e' he' => (hfree.removeOne e.1 e.2 id) e' (mem_cons_of_mem _ he')
      have hone : (removeOne acc.1 e.1 e.2 id).2 = false := by
        unfold TimeIndex.removeOne
        cases hkey : acc.1.lookup e.1 with
        | none => rfl
        | some s =>
          obtain ⟨hstart, hend⟩ := hfree e mem_cons_self s hkey
          exact Bool.or_eq_false_iff.mpr ⟨hstart, hend⟩
      exact Bool.or_eq_false_iff.mpr ⟨hacc, hone⟩
  exact hfold ranges (index, false) rfl h

end TimeIndex

namespace ChunkStore

open Catalog

variable {st st' st'' : ChunkStore} {c : Chunk} {cs ds : List Chunk} {diffs more : List ChunkStoreDiff}

/-! ## Balanced steps -/

/-- The diffs account for the rows that came and went, and on the way no more rows go than there are. -/
structure Balances (st : ChunkStore) (diffs : List ChunkStoreDiff) (st' : ChunkStore) : Prop where
  total : ∀ rowId, (rowCount st'.physicalChunks rowId : Int) =
    rowCount st.physicalChunks rowId + eventBalance diffs rowId
  floor : ∀ rowId n, 0 ≤ (rowCount st.physicalChunks rowId : Int) + eventBalance (diffs.take n) rowId

theorem Balances.of_eq (h : st'.physicalChunksPerChunkId = st.physicalChunksPerChunkId) : Balances st [] st' := by
  have hsame : st'.physicalChunks = st.physicalChunks := congrArg values h
  refine ⟨fun rowId => ?_, fun rowId n => ?_⟩
  · rw [hsame]
    exact (add_zero _).symm
  · rw [take_nil]
    exact Int.natCast_nonneg _

theorem Balances.trans (h₁ : Balances st diffs st') (h₂ : Balances st' more st'') :
    Balances st (diffs ++ more) st'' := by
  refine ⟨fun rowId => ?_, fun rowId n => ?_⟩
  · rw [h₂.total rowId, h₁.total rowId, eventBalance_append]
    exact add_assoc _ _ _
  · rw [take_append, eventBalance_append]
    by_cases hn : n ≤ diffs.length
    · have hrest : more.take (n - diffs.length) = [] := by
        rw [Nat.sub_eq_zero_of_le hn, take_zero]
      have hfloor := h₁.floor rowId n
      have hnil : eventBalance [] rowId = 0 := rfl
      rw [hrest]
      omega
    · have hwhole : diffs.take n = diffs := take_of_length_le (Nat.le_of_not_le hn)
      have hfloor := h₂.floor rowId (n - diffs.length)
      have htotal := h₁.total rowId
      rw [hwhole]
      omega

theorem Balances.single {diff : ChunkStoreDiff} (h : ∀ rowId, (rowCount st'.physicalChunks rowId : Int) =
    rowCount st.physicalChunks rowId + diff.rowDelta rowId) : Balances st [diff] st' := by
  have hsum : ∀ rowId, eventBalance [diff] rowId = diff.rowDelta rowId := fun _ => add_zero _
  refine ⟨fun rowId => by rw [hsum]; exact h rowId, fun rowId n => ?_⟩
  cases n with
  | zero => exact Int.natCast_nonneg _
  | succ n =>
    rw [take_succ_cons, take_nil, hsum, ← h rowId]
    exact Int.natCast_nonneg _

/-- The chunks that went between two states. -/
def Evicts (st : ChunkStore) (cs : List Chunk) (st' : ChunkStore) : Prop :=
  st.physicalChunks.Perm (cs ++ st'.physicalChunks)

theorem Evicts.of_eq (h : st'.physicalChunksPerChunkId = st.physicalChunksPerChunkId) : Evicts st [] st' := by
  unfold Evicts physicalChunks
  rw [h]
  exact .refl _

theorem Evicts.trans (h₁ : Evicts st cs st') (h₂ : Evicts st' ds st'') : Evicts st (cs ++ ds) st'' := by
  have h : st.physicalChunks.Perm (cs ++ (ds ++ st''.physicalChunks)) :=
    Perm.trans h₁ (Perm.append_left cs h₂)
  rw [← append_assoc] at h
  exact h

theorem Evicts.balances (h : Evicts st cs st') (reason : ChunkDeletionReason) :
    Balances st (cs.map fun c => .deletion ⟨c, reason⟩) st' := by
  have hsplit : ∀ rowId, rowCount st.physicalChunks rowId =
      rowCount cs rowId + rowCount st'.physicalChunks rowId := by
    intro rowId
    rw [rowCount_perm h rowId, rowCount_append]
  refine ⟨fun rowId => ?_, fun rowId n => ?_⟩
  · rw [eventBalance_deletions, hsplit]
    omega
  · have hpart : rowCount cs rowId = rowCount (cs.take n) rowId + rowCount (cs.drop n) rowId := by
      rw [← rowCount_append, take_append_drop]
    rw [← map_take, eventBalance_deletions, hsplit, hpart]
    omega

theorem evicts_erasePhysical {id : ChunkId} (hc : st.physical id = some c)
    (h : st'.physicalChunksPerChunkId = AList.erase id st.physicalChunksPerChunkId) : Evicts st [c] st' := by
  unfold Evicts physicalChunks
  rw [h]
  exact values_perm_erase hc

theorem storePhysical_rowCount (h : st.physical c.id = none) (rowId : RowId) :
    rowCount (st.storePhysical c).physicalChunks rowId =
      c.rowIds.count rowId + rowCount st.physicalChunks rowId := by
  have hperm : (st.storePhysical c).physicalChunks.Perm (c :: st.physicalChunks) :=
    values_insert_perm c h
  rw [rowCount_perm hperm, rowCount_cons]

/-! ## Removals -/

theorem removeMinRowId_physicalChunks (st : ChunkStore) (c : Chunk) (id : ChunkId) :
    (st.removeMinRowId c id).physicalChunksPerChunkId = st.physicalChunksPerChunkId := by
  unfold removeMinRowId
  cases c.minRowId <;> rfl

theorem removeChunkShallow_evicts (hv : st.catalog.Sound) (c : Chunk) :
    Evicts st (st.removeChunkShallow c).2.toList (st.removeChunkShallow c).1 := by
  rw [(removeChunkShallow_names hv c).1]
  rcases removeChunkShallow_cases st c with ⟨hnone, heq⟩ | ⟨removed, hsome, heq⟩
  · rw [hnone, heq]
    exact Evicts.of_eq (removeMinRowId_physicalChunks st c c.id)
  · rw [hsome, heq]
    refine evicts_erasePhysical hsome ?_
    rw [(releasePhysical_counter _ removed c.id).1, removeMinRowId_physicalChunks]

theorem removeShallowLoop_evicts {budget : Option (Nat → Bool)} {reason : ChunkDeletionReason} :
    ∀ {chunks : List Chunk} {n : Nat} {st : ChunkStore}, st.catalog.Sound →
      Evicts st (reported (removeShallowLoop budget reason n st chunks))
        (removeShallowLoop budget reason n st chunks).1
  | [], _, _, _ => .of_eq rfl
  | c :: chunks, n, st, hv => by
    have hround := removeChunkShallow_evicts hv c
    have hsound := hv.removes (removeChunkShallow_removes hv (mem_singleton_self c)).removes
    have ih := fun m => @removeShallowLoop_evicts budget reason chunks m _ hsound
    rw [removeShallowLoop]
    split
    · rename_i heq
      rw [heq] at hround ih
      exact hround.trans (ih n)
    · rename_i removed heq
      rw [heq] at hround ih
      split
      · exact hround
      · exact hround.trans (ih (n + 1))

variable {chunks : List Chunk}

theorem removeChunksDeep_evicts (hv : st.catalog.Sound)
    (hchunks : ∀ c ∈ chunks, st.physical c.id = some c) (hnodup : (chunks.map (·.id)).Nodup)
    (reason : ChunkDeletionReason) :
    Evicts st (reported (st.removeChunksDeep chunks reason)) (st.removeChunksDeep chunks reason).1 := by
  obtain ⟨hshallow, hshallowNodup⟩ := @removeShallowLoop_names reason none chunks 0 st hv
  have hdeepNodup : (reported (st.removeChunksDeep chunks reason)).Nodup := by
    apply Nodup.of_map Chunk.id
    apply nodup_iff_count_le_one.mpr
    intro id
    exact (removeChunksDeep_count hv hchunks id).trans (nodup_iff_count_le_one.mp hnodup id)
  have hsame : (st.removeChunksDeep chunks reason).1.physicalChunksPerChunkId =
      (st.removeChunksShallow chunks none reason).1.physicalChunksPerChunkId :=
    removeDeepLoop_induct (I := fun st' => st'.physicalChunksPerChunkId =
      (st.removeChunksShallow chunks none reason).1.physicalChunksPerChunkId) (fun _ _ _ h => h) rfl
  have hperm : (reported (st.removeChunksDeep chunks reason)).Perm
      (reported (st.removeChunksShallow chunks none reason)) := by
    refine (perm_ext_iff_of_nodup hdeepNodup hshallowNodup).mpr fun d => ?_
    rw [removeChunksDeep_names hv hchunks d, hshallow d]
    have hchunk : (st.removeChunksDeep chunks reason).1.catalog.chunks d.id =
        (st.removeChunksShallow chunks none reason).1.catalog.chunks d.id := congrArg (AList.lookup d.id) hsame
    rw [hchunk]
    rfl
  have hevicts : Evicts st (reported (st.removeChunksShallow chunks none reason))
      (st.removeChunksShallow chunks none reason).1 := removeShallowLoop_evicts hv
  unfold Evicts physicalChunks
  rw [hsame]
  exact Perm.trans hevicts (Perm.append_right _ hperm.symm)

theorem removeChunksShallow_balances (hv : st.catalog.Sound) (chunks : List Chunk)
    (budget : Option (Nat → Bool)) (reason : ChunkDeletionReason) : Balances st
      ((st.removeChunksShallow chunks budget reason).2.map ChunkStoreDiff.deletion)
      (st.removeChunksShallow chunks budget reason).1 := by
  have hevicts : Evicts st (reported (st.removeChunksShallow chunks budget reason))
      (st.removeChunksShallow chunks budget reason).1 := removeShallowLoop_evicts hv
  have hreason : ∀ del ∈ (st.removeChunksShallow chunks budget reason).2, del.reason = reason :=
    removeShallowLoop_reason
  rw [map_deletion_eq hreason]
  exact hevicts.balances reason

theorem removeChunksDeep_balances (hv : st.catalog.Sound) {chunks : List Chunk}
    (hchunks : ∀ c ∈ chunks, st.physical c.id = some c) (hnodup : (chunks.map (·.id)).Nodup)
    (reason : ChunkDeletionReason) : Balances st
      ((st.removeChunksDeep chunks reason).2.map ChunkStoreDiff.deletion)
      (st.removeChunksDeep chunks reason).1 := by
  rw [map_deletion_eq removeChunksDeep_reason]
  exact (removeChunksDeep_evicts hv hchunks hnodup reason).balances reason

theorem gc_balances (hv : st.catalog.Sound) {options : GarbageCollectionOptions} {clock : GcClock}
    (hnodup : ((st.gcMarked options clock).map (·.id)).Nodup) :
    Balances st (st.gc options clock).2 (st.gc options clock).1 := by
  rw [gc_events, gc_eq]
  have h₁ := gcPlan_removes hv options clock
  have hsound := hv.removes h₁.removes
  have hdeep : (((st.gcPlan options clock).2).map (·.id)).Nodup := by
    have h := (((gcPlan_halves st options clock).2.map Chunk.id).nodup_iff).mpr hnodup
    rw [map_append] at h
    exact (nodup_append'.mp h).2.1
  refine (Evicts.trans (removeShallowLoop_evicts hv) ?_).balances _
  exact removeChunksDeep_evicts hsound (gcPlan_deep_physical hv options clock) hdeep _

/-! ## Dropping an entity -/

theorem removeMinRowIds_physicalChunks (ids : List ChunkId) (st : ChunkStore) :
    (st.removeMinRowIds ids).physicalChunksPerChunkId = st.physicalChunksPerChunkId := by
  obtain ⟨_, h⟩ := removeMinRowIds_eq ids st
  rw [h]

theorem dropPhysical_evicts (isStatic : Bool) : ∀ (ids : List ChunkId) (st : ChunkStore),
    Evicts st (dropPhysical isStatic st ids).2 (dropPhysical isStatic st ids).1
  | [], _ => .of_eq rfl
  | id :: ids, st => by
    rw [dropPhysical]
    split
    · exact dropPhysical_evicts isStatic ids st
    · rename_i d hd
      refine Evicts.trans (evicts_erasePhysical hd ?_) (dropPhysical_evicts isStatic ids _)
      rfl

theorem dropEntityPath_evicts (st : ChunkStore) (e : EntityPath) : ∃ cs, Evicts st cs (st.dropEntityPath e).1 ∧
    (st.dropEntityPath e).2 = cs.map fun c => ChunkStoreDiff.deletion ⟨c, .explicitDrop⟩ := by
  have hsame : (((st.dropStaticMap e).removeMinRowIds (st.staticChunkIds e).elems).dropTemporalMaps
      e).physicalChunksPerChunkId = st.physicalChunksPerChunkId :=
    removeMinRowIds_physicalChunks _ (st.dropStaticMap e)
  refine ⟨_, Evicts.trans (Evicts.trans (Evicts.of_eq ?_) (dropPhysical_evicts true _ _))
    (dropPhysical_evicts false _ _), rfl⟩
  rw [removeMinRowIds_physicalChunks]
  exact hsame

theorem dropEntityPath_balances (st : ChunkStore) (e : EntityPath) :
    Balances st (st.dropEntityPath e).2 (st.dropEntityPath e).1 := by
  obtain ⟨cs, hevicts, hdiffs⟩ := dropEntityPath_evicts st e
  rw [hdiffs]
  exact hevicts.balances _

/-! ## Insertions -/

/-- No chunk has a piece twice among those an earlier insertion left. -/
def PiecesDistinct (st : ChunkStore) : Prop :=
  ∀ id g, st.danglingSplits.lookup id = some g → g.Nodup

theorem PiecesDistinct.shrinks (h : st.PiecesDistinct)
    (hshrinks : LineageDroppingCtx.Shrinks st.toLineageDroppingCtx st'.toLineageDroppingCtx) :
    st'.PiecesDistinct :=
  fun id g hg => h id g (hshrinks.dangling_of id g hg)

theorem PiecesDistinct.of_eq (h : st.PiecesDistinct) (heq : st'.danglingSplits = st.danglingSplits) :
    st'.PiecesDistinct := by
  intro id g hg
  exact h id g (heq ▸ hg)

/-- A chunk that a manifest announced finds none of its keys occupied in the virtual indices. -/
def ReplacesQuietly (st : ChunkStore) (c : Chunk) : Prop :=
  st.isRootFromManifest c.id = true →
    TimeIndex.KeysFree st.temporalChunkIdsPerEntityPerComponent c.componentRanges ∧
      TimeIndex.KeysFree st.temporalChunkIdsPerEntity c.timelineRanges

theorem ReplacesQuietly.report (h : st.ReplacesQuietly c) (hroot : st.isRootFromManifest c.id = true) :
    (st.removeChunkFromVirtualIndices c).2 = false :=
  Bool.or_eq_false_iff.mpr
    ⟨TimeIndex.removeAll_of_keysFree (h hroot).1, TimeIndex.removeAll_of_keysFree (h hroot).2⟩

theorem removeChunksDeep_quiet (h : st.physical c.id = none) (reason : ChunkDeletionReason)
    (hquiet : (st.removeChunkFromVirtualIndices c).2 = false) : (st.removeChunksDeep [c] reason).2 = [] := by
  have hshallow : st.removeChunksShallow [c] none reason = (st.removeMinRowId c c.id, []) := by
    have hphys : (st.removeMinRowId c c.id).physical c.id = none := by
      unfold ChunkStore.physical
      rw [removeMinRowId_physicalChunks]
      exact h
    unfold removeChunksShallow removeShallowLoop removeChunkShallow
    dsimp only
    rw [hphys]
    rfl
  have hsame : ((st.removeMinRowId c c.id).removeChunkFromVirtualIndices c).2 = false := by
    rw [← hquiet]
    unfold removeMinRowId
    cases c.minRowId <;> rfl
  unfold removeChunksDeep
  rw [hshallow]
  unfold removeDeepLoop
  dsimp only
  rw [hsame]
  rfl

theorem cleanUp_balances (hv : st.catalog.Sound) (hpieces : st.PiecesDistinct)
    (habsent : st.physical c.id = none) (hquiet : st.ReplacesQuietly c) :
    Balances st ((st.cleanUp c).2.map ChunkStoreDiff.deletion) (st.cleanUp c).1 := by
  have hfirst : Balances st [] (st.withoutManifestEntries c) := by
    apply Balances.of_eq
    unfold withoutManifestEntries
    split
    · rw [removeChunksDeep_of_absent habsent]
      exact removeMinRowId_physicalChunks st c c.id
    · rfl
  have hreport : (if st.isRootFromManifest c.id then st.removeChunksDeep [c] .virtualToPhysicalReplacement
      else (st, [])) = (st.withoutManifestEntries c, []) := by
    unfold withoutManifestEntries
    cases hroot : st.isRootFromManifest c.id with
    | true => exact Prod.ext rfl (removeChunksDeep_quiet habsent _ (hquiet.report hroot))
    | false => rfl
  have hv' := hv.removes (withoutManifestEntries_cleanedUp habsent).removes
  unfold cleanUp
  rw [hreport]
  dsimp only
  split
  · exact hfirst
  · rename_i g hg
    have hdistinct : g.Nodup := by
      refine hpieces c.id g ?_
      rw [← (withoutManifestEntries_frame habsent).1]
      exact hg
    have hsub : ((g.filterMap (st.withoutManifestEntries c).physical).map (·.id)).Sublist g := by
      clear hdistinct hg
      induction g with
      | nil => exact .slnil
      | cons x g ih =>
        cases hx : (st.withoutManifestEntries c).physical x with
        | none =>
          rw [filterMap_cons_none hx]
          exact ih.cons x
        | some d =>
          rw [filterMap_cons_some hx, map_cons, hv'.id_eq x d hx]
          exact ih.cons_cons x
    have hforgotten : Balances (st.withoutManifestEntries c) []
        ((st.withoutManifestEntries c).withoutDangling c.id) := .of_eq rfl
    exact hfirst.trans (hforgotten.trans (@removeChunksDeep_balances
      ((st.withoutManifestEntries c).withoutDangling c.id) hv' _
      (fun d hd => (mem_filterMap_physical hv' hd).2) (hdistinct.sublist hsub) _))

theorem storePhysical_balances (h : st.physical c.id = none) {diff : ChunkStoreDiff}
    (hdiff : ∀ rowId, diff.rowDelta rowId = (c.rowIds.count rowId : Int)) :
    Balances st [diff] (st.storePhysical c) := by
  refine .single fun rowId => ?_
  rw [storePhysical_rowCount h rowId, hdiff rowId]
  omega

theorem rowDelta_addition (before after : Chunk) (lineage : ChunkDirectLineageReport) {d : Chunk}
    (h : (ChunkStoreDiff.addition before after lineage).deltaChunk = some d) (rowId : RowId) :
    (ChunkStoreDiff.addition before after lineage).rowDelta rowId = (d.rowIds.count rowId : Int) := by
  unfold rowDelta
  rw [h]
  exact one_mul _

theorem foldl_storePiece_balances (c : Chunk) (pieces : List Chunk) : ∀ (ps : List Chunk) (st : ChunkStore),
    (∀ p ∈ ps, st.physical p.id = none) → (ps.map (·.id)).Nodup →
      Balances st (ps.map fun p => .addition c p (.splitFrom c (pieces.filter fun q => q.id ≠ p.id)))
        (ps.foldl (storePiece c pieces) st)
  | [], _, _, _ => .of_eq rfl
  | p :: ps, st, hps, hnodup => by
    rw [map_cons, nodup_cons] at hnodup
    have hp := hps p mem_cons_self
    have hindexed : Balances st [] ((st.ensureLineage p.id
        (.splitFrom c.id ((pieces.filter fun q => q.id ≠ p.id).map (·.id)))).indexChunk p) := .of_eq rfl
    have hstep : Balances st [.addition c p (.splitFrom c (pieces.filter fun q => q.id ≠ p.id))]
        (storePiece c pieces st p) :=
      hindexed.trans (@storePhysical_balances ((st.ensureLineage p.id (.splitFrom c.id
        ((pieces.filter fun q => q.id ≠ p.id).map (·.id)))).indexChunk p) p hp _
        fun rowId => rowDelta_addition c p _ rfl rowId)
    refine hstep.trans (foldl_storePiece_balances c pieces ps (storePiece c pieces st p) ?_ hnodup.2)
    intro q hq
    have hne : q.id ≠ p.id := fun heq => hnodup.1 (mem_map.mpr ⟨q, hq, heq⟩)
    exact (lookup_insert_ite _ _ _ _).trans ((if_neg hne).trans (hps q (mem_cons_of_mem _ hq)))

theorem removeOverwritten_evicts (e : EntityPath) (acc : ChunkStore × List ChunkStoreDiff)
    (overwritten : ChunkId × RowId) : ∃ cs, Evicts acc.1 cs (removeOverwritten e acc overwritten).1 ∧
      (removeOverwritten e acc overwritten).2 =
        acc.2 ++ cs.map fun c => ChunkStoreDiff.deletion ⟨c, .overwrite⟩ := by
  obtain ⟨id, rowIdMin⟩ := overwritten
  unfold removeOverwritten
  dsimp only
  split
  · exact ⟨[], .of_eq rfl, (append_nil _).symm⟩
  · split
    · exact ⟨[], .of_eq rfl, (append_nil _).symm⟩
    · rename_i removed hremoved
      exact ⟨[removed], evicts_erasePhysical hremoved rfl, rfl⟩

theorem insertStatic_evicts (st : ChunkStore) (c : Chunk) (lineage : ChunkDirectLineageReport) :
    ∃ cs, Evicts st cs (st.insertStatic c lineage).1 ∧ (st.insertStatic c lineage).2 =
      .addition c c lineage :: cs.map fun c => ChunkStoreDiff.deletion ⟨c, .overwrite⟩ := by
  refine foldlRecOn (motive := fun acc : ChunkStore × List ChunkStoreDiff => ∃ cs, Evicts st cs acc.1 ∧
    acc.2 = .addition c c lineage :: cs.map fun c => deletion ⟨c, .overwrite⟩) _ _ ?_ ?_
  · exact ⟨[], .of_eq rfl, rfl⟩
  · intro acc ⟨cs, hevicts, hdiffs⟩ overwritten _
    obtain ⟨ds, hevicts', hdiffs'⟩ := removeOverwritten_evicts c.entityPath acc overwritten
    refine ⟨cs ++ ds, hevicts.trans hevicts', ?_⟩
    rw [hdiffs', hdiffs, map_append]
    rfl

theorem insertStatic_balances (habsent : st.physical c.id = none) :
    Balances st (st.insertStatic c .volatile).2 ((st.insertStatic c .volatile).1.storePhysical c) := by
  obtain ⟨cs, hevicts, hdiffs⟩ := insertStatic_evicts st c .volatile
  have hgone : (st.insertStatic c .volatile).1.physical c.id = none :=
    (insertStatic_overwrites habsent .volatile).removes.absent habsent
  have hdeletions := hevicts.balances .overwrite
  -- the addition comes first, so the deletions after it start from more rows
  have hcons : ∀ (more : List ChunkStoreDiff) rowId, eventBalance (.addition c c .volatile :: more) rowId =
      (c.rowIds.count rowId : Int) + eventBalance more rowId := by
    intro more rowId
    rw [← rowDelta_addition c c .volatile rfl rowId]
    rfl
  rw [hdiffs]
  refine ⟨fun rowId => ?_, fun rowId n => ?_⟩
  · have htotal := hdeletions.total rowId
    rw [storePhysical_rowCount hgone rowId, hcons]
    omega
  · cases n with
    | zero => exact Int.natCast_nonneg _
    | succ n =>
      have hfloor := hdeletions.floor rowId n
      rw [take_succ_cons, hcons]
      omega

theorem removeChunksDeep_single_evicts (h : st.physical c.id = some c) (reason : ChunkDeletionReason) :
    Evicts st [c] (st.removeChunksDeep [c] reason).1 := by
  have hshallow := removeChunksShallow_single st c reason
  have hdeep : (st.removeChunksDeep [c] reason).1.physicalChunksPerChunkId =
      (st.removeChunksShallow [c] none reason).1.physicalChunksPerChunkId := rfl
  refine evicts_erasePhysical h ?_
  rw [hdeep, hshallow]
  rcases removeChunkShallow_cases st c with ⟨hnone, -⟩ | ⟨removed, -, heq⟩
  · rw [h] at hnone
    cases hnone
  · rw [heq, (releasePhysical_counter _ removed c.id).1, removeMinRowId_physicalChunks]

theorem recordCompaction_evicts {elected m : Chunk} (helected : st.physical elected.id = some elected)
    (hm : st.physical m.id = none) : Evicts st [elected] ((st.indexChunk m).recordCompaction c elected m) ∧
      ((st.indexChunk m).recordCompaction c elected m).physical m.id = none := by
  refine ⟨@removeChunksDeep_single_evicts ((st.indexChunk m).recordSources c elected m) elected helected
    .compaction, ?_⟩
  have h := @removeChunksDeep_single_physical ((st.indexChunk m).recordSources c elected m) elected helected
    .compaction m.id
  refine h.trans ?_
  split
  · rfl
  · exact hm

theorem recordCompaction_balances {keeps : Prop} {elected m : Chunk} (helected : st.physical elected.id = some elected)
    (hm : st.physical m.id = none) (hmerge : m.MergeOf keeps elected c) : Balances st
      [.addition c m (.compactedFrom (compactionSources c elected))]
      (((st.indexChunk m).recordCompaction c elected m).storePhysical m) := by
  obtain ⟨hevicts, hgone⟩ := recordCompaction_evicts (c := c) helected hm
  refine .single fun rowId => ?_
  have hdelta := rowDelta_addition c m (.compactedFrom (compactionSources c elected)) rfl rowId
  have hcount : m.rowIds.count rowId = elected.rowIds.count rowId + c.rowIds.count rowId := by
    rw [hmerge.rowIds.count_eq, count_append]
  have hbefore := rowCount_perm hevicts rowId
  rw [rowCount_append, rowCount_cons] at hbefore
  rw [storePhysical_rowCount hgone rowId, hdelta, hcount, hbefore]
  have hnil : rowCount [] rowId = 0 := rfl
  omega

/-- The ways an accepted insertion ends, with the events of what comes after the clean-up. -/
inductive ReportedInsertion (env : Env) (st : ChunkStore) (c : Chunk) : ChunkStore → List ChunkStoreDiff → Prop
  | pieces (hstatic : c.isStatic = false)
      (hsplit : SplitOf env 0 (st.piecesOf env c).2 c (st.piecesOf env c).1)
      (habsent : ∀ p ∈ (st.piecesOf env c).1, (st.prepared c).physical p.id = none) :
      ReportedInsertion env st c ((st.piecesOf env c).1.foldl (storePiece c (st.piecesOf env c).1)
          ((st.prepared c).recordSplit c (st.piecesOf env c).1))
        ((st.piecesOf env c).1.map fun p =>
          .addition c p (.splitFrom c ((st.piecesOf env c).1.filter fun q => q.id ≠ p.id)))
  | static (hstatic : c.isStatic = true) :
      ReportedInsertion env st c (((st.prepared c).insertStatic c .volatile).1.storePhysical c)
        ((st.prepared c).insertStatic c .volatile).2
  | temporal (hstatic : c.isStatic = false) :
      ReportedInsertion env st c (((st.prepared c).indexChunk c).storePhysical c) [.addition c c .volatile]
  | merged {elected m : Chunk} (hstatic : c.isStatic = false) (helectedStatic : elected.isStatic = false)
      (helected : (st.prepared c).physical elected.id = some elected)
      (habsent : (st.prepared c).physical m.id = none) (hwhole : (st.piecesOf env c).1.length ≤ 1)
      (helect : findAndElectCompactionCandidate env (st.prepared c) c = some elected)
      (hmerge : m.MergeOf (elected.JoinsColumns env c) elected c)
      (hcells : ∀ timeline component i t, (m.components.lookup component).isSome → elected.HasCellAt timeline component i t →
        ∃ j, m.HasCellAt timeline component j t) :
      ReportedInsertion env st c ((((st.prepared c).indexChunk m).recordCompaction c elected m).storePhysical m)
        [.addition c m (.compactedFrom (compactionSources c elected))]

variable {env : Env}

theorem insertChunk_reported (hv : st.catalog.Sound) (hwf : c.WellFormed)
    (hfresh : Fresh env st c) (h : st.Accepts c) : ∃ result diffs, ReportedInsertion env st c result diffs ∧
      insertChunk env st c = prependDeletions (st.cleanUp c).2 (result, .ok diffs) := by
  obtain ⟨hc, habsent, -⟩ := sound_of_earlyReturn hwf h.2
  have hrows : c.numRows ≠ 0 := fun h' => hc.nonempty (length_eq_zero_iff.mp h')
  obtain ⟨fuel, hfuel⟩ : ∃ fuel, c.numRows + 1 = fuel + 2 := ⟨c.numRows - 1, by omega⟩
  have hav := available_prepared hv habsent hfresh
  have hunfold : insertChunk env st c = insertChunkImpl env (fuel + 2) 0 st c .volatile := by
    unfold insertChunk
    rw [h.1, hfuel]
    rfl
  rw [hunfold, insertChunkImpl_eq h.2]
  split
  · rename_i hlen
    obtain ⟨hstatic, hsplit⟩ := piecesOf_spec hv hc habsent hfresh hlen
    rw [insertPieces_piecesOf hv hc habsent hfresh hlen]
    refine ⟨_, _, .pieces hstatic hsplit fun p hp => ?_, rfl⟩
    obtain ⟨j, -, -, hid⟩ := hsplit.ids.mem p hp
    rw [hid]
    exact (hav j).physical
  · rename_i hlen
    unfold insertWhole
    split
    · rename_i hstatic
      exact ⟨_, _, .static hstatic, rfl⟩
    · rename_i hstatic
      have htemporal : c.isStatic = false := Bool.eq_false_of_not_eq_true hstatic
      unfold insertTemporal
      cases helect : findAndElectCompactionCandidate env (st.prepared c) c with
      | none => exact ⟨_, _, .temporal htemporal, rfl⟩
      | some elected =>
        obtain ⟨id, hphys, -, hconcat, -⟩ := findAndElectCompactionCandidate_spec helect
        have hv' : (st.prepared c).catalog.Sound := hv.removes (cleanUp_spec hv habsent).removes
        have helected := hv'.chunk id elected hphys
        obtain rfl : elected.id = id := hv'.id_eq id elected hphys
        have hconcat' := Chunk.concatenable_symm hconcat
        obtain ⟨m, k', hok, ⟨j, -, hid⟩, hmerge, -⟩ := Chunk.concatAndSort_spec env (st.piecesOf env c).2
          helected.wf hwf helected.nonempty hc.nonempty hconcat'
        have helectedStatic : elected.isStatic = false := by
          rw [Chunk.isStatic_of_concatenable hconcat']
          exact htemporal
        simp only [hok]
        refine ⟨_, _, .merged htemporal helectedStatic hphys ?_ (Nat.le_of_not_lt hlen) helect hmerge fun tl co i t hkept hcell => ?_, rfl⟩
        · rw [hid]
          exact (hav j).physical
        · exact Chunk.concatAndSort_hasCellAt helected.wf hwf helected.nonempty hc.nonempty hconcat' hok
            hkept (.inl hcell)

theorem insertChunk_balances (hv : st.catalog.Sound) (hpieces : st.PiecesDistinct)
    (hwf : c.WellFormed) (hfresh : Fresh env st c) (h : st.Accepts c) (hquiet : st.ReplacesQuietly c) :
    ∃ diffs, (insertChunk env st c).2 = .ok diffs ∧ Balances st diffs (insertChunk env st c).1 := by
  obtain ⟨hc, habsent, -⟩ := sound_of_earlyReturn hwf h.2
  have hprepared : Balances st ((st.cleanUp c).2.map deletion) (st.prepared c) := by
    have h : Balances (st.cleanUp c).1 [] (st.prepared c) := .of_eq rfl
    have h' := (cleanUp_balances hv hpieces habsent hquiet).trans h
    rw [append_nil] at h'
    exact h'
  have habsent' := prepared_absent hv habsent
  obtain ⟨result, diffs, hreported, heq⟩ := insertChunk_reported hv hwf hfresh h
  rw [heq]
  refine ⟨_, rfl, hprepared.trans ?_⟩
  cases hreported with
  | pieces hstatic hsplit hnew =>
    have hrecorded : Balances (st.prepared c) [] ((st.prepared c).recordSplit c (st.piecesOf env c).1) :=
      .of_eq rfl
    exact hrecorded.trans (foldl_storePiece_balances c _ _ _ hnew hsplit.ids.nodup)
  | static hstatic => exact insertStatic_balances habsent'
  | temporal hstatic =>
    have hindexed : Balances (st.prepared c) [] ((st.prepared c).indexChunk c) := .of_eq rfl
    exact hindexed.trans (@storePhysical_balances ((st.prepared c).indexChunk c) c habsent' _
      fun rowId => rowDelta_addition c c .volatile rfl rowId)
  | merged _ _ helected hnew _ _ hmerge _ =>
    exact recordCompaction_balances helected hnew hmerge

/-! ## The pieces of a split stay distinct -/

theorem foldl_storePiece_dangling (c : Chunk) (pieces : List Chunk) : ∀ (ps : List Chunk) (st : ChunkStore),
    (ps.foldl (storePiece c pieces) st).danglingSplits = st.danglingSplits
  | [], _ => rfl
  | p :: ps, st => (foldl_storePiece_dangling c pieces ps (storePiece c pieces st p)).trans
      (insertLineageIfMissing_maps _ _ _).2.2

theorem Insertion.piecesDistinct (hv : st.catalog.Sound) (habsent : st.physical c.id = none)
    (h : st.PiecesDistinct) (hins : Insertion env st c st') : st'.PiecesDistinct := by
  have hprepared : (st.prepared c).PiecesDistinct := by
    intro id g hg
    refine h id g ((cleanUp_lineage habsent).2.2 id g ?_)
    rw [← (insertLineageIfMissing_maps (st.cleanUp c).1.toLineageDroppingCtx c.id
      .volatile).2.2]
    exact hg
  have habsent' := prepared_absent hv habsent
  cases hins with
  | pieces _ hsplit _ =>
    intro id g hg
    rw [foldl_storePiece_dangling] at hg
    have hg' : (AList.insert c.id ((st.piecesOf env c).1.map (·.id))
        (st.prepared c).danglingSplits).lookup id = some g := hg
    rw [lookup_insert_ite] at hg'
    split at hg'
    · rw [← Option.some.inj hg']
      exact hsplit.ids.nodup
    · exact hprepared id g hg'
  | static _ =>
    have hover : ((st.prepared c).insertStatic c .volatile).1.PiecesDistinct :=
      hprepared.shrinks (insertStatic_overwrites habsent' .volatile).lineage
    exact hover.of_eq rfl
  | temporal _ _ => exact hprepared.of_eq rfl
  | @merged elected m _ _ _ _ _ _ _ _ _ _ _ =>
    have hrecorded : (((st.prepared c).indexChunk m).recordSources c elected m).PiecesDistinct :=
      hprepared.of_eq (insertLineageIfMissing_maps _ _ _).2.2
    have hremoved : (((st.prepared c).indexChunk m).recordCompaction c elected m).PiecesDistinct :=
      hrecorded.shrinks (removeChunksDeep_recedes _ [elected] .compaction).lineage
    exact hremoved.of_eq rfl

theorem insertChunk_piecesDistinct (hv : st.catalog.Sound) (h : st.PiecesDistinct)
    (hwf : c.WellFormed) (hfresh : Fresh env st c) : (insertChunk env st c).1.PiecesDistinct := by
  by_cases hacc : st.Accepts c
  · exact (insertChunk_cases hv hwf hfresh hacc).1.piecesDistinct hv (sound_of_earlyReturn hwf hacc.2).2.1 h
  · rw [insertChunk_of_not_accepts hacc]
    exact h

/-! ## Dropping a time range -/

theorem new_piecesDistinct (config : ChunkSplitConfig) : (ChunkStore.new config).PiecesDistinct := by
  intro id g hg
  cases hg

structure Countable (st : ChunkStore) : Prop where
  sound : st.catalog.Sound
  pieces : st.PiecesDistinct

theorem Countable.recedes (h : st.Countable) (hremoves : Removes st.catalog st'.catalog)
    (hrecedes : Recedes st st') : st'.Countable :=
  ⟨h.sound.removes hremoves, h.pieces.shrinks hrecedes.lineage⟩

theorem removeEach_cons (deepRemoval : Bool) (reason : ChunkDeletionReason)
    (hv : st.catalog.Sound) (hchunks : ∀ d ∈ c :: chunks, st.physical d.id = some d)
    (hnodup : ((c :: chunks).map (·.id)).Nodup) :
    ∃ removed, (removed = st.removeChunksDeep [c] reason ∨ removed = st.removeChunksShallow [c] none reason) ∧
      RemovesChunks [c] st.catalog removed.1.catalog ∧ Recedes st removed.1 ∧
      (∀ d ∈ chunks, removed.1.physical d.id = some d) ∧
      removeEach deepRemoval reason st (c :: chunks) = ((removeEach deepRemoval reason removed.1 chunks).1,
        removed.2 ++ (removeEach deepRemoval reason removed.1 chunks).2) := by
  have hrest : ∀ {st' : ChunkStore}, RemovesChunks [c] st.catalog st'.catalog →
      ∀ d ∈ chunks, st'.physical d.id = some d := by
    intro st' hremoves d hd
    refine (hremoves.spares d.id fun ⟨d', hd', heq⟩ => ?_).1.trans (hchunks d (mem_cons_of_mem _ hd))
    rw [mem_singleton.mp hd'] at heq
    exact (nodup_cons.mp hnodup).1 (mem_map.mpr ⟨d, hd, heq.symm⟩)
  cases deepRemoval with
  | true =>
    have hremoves := removeChunksDeep_removes hv [c] reason
    exact ⟨_, .inl rfl, hremoves, removeChunksDeep_recedes st [c] reason, hrest hremoves, rfl⟩
  | false =>
    have hremoves := removeChunksShallow_removes hv [c] none reason
    exact ⟨_, .inr rfl, hremoves, removeChunksShallow_recedes st [c] none reason, hrest hremoves, rfl⟩

theorem removeEach_balances (deepRemoval : Bool) (reason : ChunkDeletionReason) :
    ∀ {chunks : List Chunk} {st : ChunkStore}, st.Countable → (∀ c ∈ chunks, st.physical c.id = some c) →
      (chunks.map (·.id)).Nodup →
      (removeEach deepRemoval reason st chunks).1.Countable ∧
        Balances st ((removeEach deepRemoval reason st chunks).2.map ChunkStoreDiff.deletion)
          (removeEach deepRemoval reason st chunks).1
  | [], _, h, _, _ => ⟨h, .of_eq rfl⟩
  | c :: chunks, st, h, hchunks, hnodup => by
    obtain ⟨removed, hremoved, hremoves, hrecedes, hrest, heq⟩ :=
      removeEach_cons deepRemoval reason h.sound hchunks hnodup
    have hbalances : Balances st (removed.2.map deletion) removed.1 := by
      rcases hremoved with rfl | rfl
      · refine removeChunksDeep_balances h.sound (fun d hd => ?_) ?_ reason
        · rw [mem_singleton.mp hd]
          exact hchunks c mem_cons_self
        · exact nodup_singleton c.id
      · exact removeChunksShallow_balances h.sound _ _ _
    obtain ⟨hcountable, hbalances'⟩ := @removeEach_balances deepRemoval reason chunks removed.1
      (h.recedes hremoves.removes hrecedes) hrest (nodup_cons.mp hnodup).2
    rw [heq, map_append]
    exact ⟨hcountable, hbalances.trans hbalances'⟩

/-- The slices that come back have new ids, and draw new ids when they are inserted. -/
def SlicesNew (env : Env) (insertEnv : Nat → Env) : Nat → Nat → ChunkStore → List Chunk → Prop
  | _, _, _, [] => True
  | n, k, st, c :: chunks =>
    ¬ st.Mentions (c.sortByRowIdsIfNeeded env k).1.id ∧ Fresh (insertEnv n) st (c.sortByRowIdsIfNeeded env k).1 ∧
      SlicesNew env insertEnv (n + 1) (c.sortByRowIdsIfNeeded env k).2
        (insertChunk (insertEnv n) st (c.sortByRowIdsIfNeeded env k).1).1 chunks

theorem insertSlices_cons {insertEnv : Nat → Env} {n k : Nat}
    {diffs : List ChunkStoreDiff}
    (hok : (insertChunk (insertEnv n) st (c.sortByRowIdsIfNeeded env k).1).2 = .ok diffs) :
    insertSlices env insertEnv n k st (c :: chunks) =
      let rest := insertSlices env insertEnv (n + 1) (c.sortByRowIdsIfNeeded env k).2
        (insertChunk (insertEnv n) st (c.sortByRowIdsIfNeeded env k).1).1 chunks
      (rest.1, rest.2.map (diffs ++ ·)) := by
  rw [insertSlices]
  generalize insertChunk (insertEnv n) st (c.sortByRowIdsIfNeeded env k).1 = result at *
  obtain ⟨st₁, outcome⟩ := result
  obtain rfl : outcome = .ok diffs := hok
  rfl

theorem insertChunk_result_of_not_accepts {env : Env} (h : ¬ st.Accepts c) :
    (insertChunk env st c).2 = .ok [] ∨ c.isSorted = false ∧ ∃ e, (insertChunk env st c).2 = .error e := by
  unfold insertChunk
  cases hroot : st.isRootChunk c.id with
  | false => exact .inl rfl
  | true =>
    cases hearly : st.earlyReturn c with
    | none => exact absurd ⟨hroot, hearly⟩ h
    | some result =>
      cases result with
      | ok => exact .inl (by simp [insertChunkImpl, hearly, Except.map])
      | error e =>
        obtain ⟨-, -, -, hunsorted⟩ := earlyReturn_error_iff.mp ⟨e, hearly⟩
        exact .inr ⟨hunsorted, e, by simp [insertChunkImpl, hearly, Except.map]⟩

theorem insertSlices_balances {env : Env} {insertEnv : Nat → Env} : ∀ {chunks : List Chunk} {n k : Nat}
    {st : ChunkStore}, st.Countable → (∀ c ∈ chunks, c.WellFormed) → SlicesNew env insertEnv n k st chunks →
      (insertSlices env insertEnv n k st chunks).1.Countable ∧
        ∃ diffs, (insertSlices env insertEnv n k st chunks).2 = .ok diffs ∧
          Balances st diffs (insertSlices env insertEnv n k st chunks).1
  | [], _, _, _, h, _, _ => ⟨h, [], rfl, .of_eq rfl⟩
  | c :: chunks, n, k, st, h, hwf, ⟨hnew, hfresh, hrest⟩ => by
    obtain ⟨hsortedWf, hsorted⟩ := @Chunk.sortByRowIdsIfNeeded_wf c env k (hwf c mem_cons_self)
    have hstep : ∃ diffs, (insertChunk (insertEnv n) st (c.sortByRowIdsIfNeeded env k).1).2 = .ok diffs ∧
        Balances st diffs (insertChunk (insertEnv n) st (c.sortByRowIdsIfNeeded env k).1).1 := by
      by_cases hacc : st.Accepts (c.sortByRowIdsIfNeeded env k).1
      · refine insertChunk_balances h.sound h.pieces hsortedWf hfresh hacc fun hroot => ?_
        -- no manifest has announced a new id
        have hentry : st.entry (c.sortByRowIdsIfNeeded env k).1.id = none :=
          (Available.of_not_mentions hnew).entry
        have hdirect : st.directLineage (c.sortByRowIdsIfNeeded env k).1.id = none :=
          congrArg (Option.map _) hentry
        unfold isRootFromManifest at hroot
        rw [hdirect] at hroot
        cases hroot
      · rcases @insertChunk_result_of_not_accepts _ _ (insertEnv n) hacc with hok | ⟨hunsorted, -⟩
        · rw [insertChunk_of_not_accepts hacc]
          exact ⟨[], hok, .of_eq rfl⟩
        · rw [hsorted] at hunsorted
          cases hunsorted
    obtain ⟨diffs, hok, hbalances⟩ := hstep
    have hcountable : (insertChunk (insertEnv n) st (c.sortByRowIdsIfNeeded env k).1).1.Countable :=
      ⟨@insertChunk_sound st (insertEnv n) ⟨_, Chunk.sanityCheck_iff.mpr hsortedWf⟩ h.sound hfresh,
        insertChunk_piecesDistinct h.sound h.pieces hsortedWf hfresh⟩
    obtain ⟨hcountable', more, hok', hbalances'⟩ := @insertSlices_balances env insertEnv chunks (n + 1)
      (c.sortByRowIdsIfNeeded env k).2 _ hcountable (fun d hd => hwf d (mem_cons_of_mem _ hd)) hrest
    rw [insertSlices_cons hok]
    refine ⟨hcountable', diffs ++ more, ?_, hbalances.trans hbalances'⟩
    dsimp only
    rw [hok']
    rfl

theorem dropPlan_spec (hv : st.catalog.Sound) (env : Env) (timeline : TimelineName)
    (dropRange : AbsoluteTimeRange) :
    (∀ c ∈ (dropPlan env st timeline dropRange).1, st.physical c.id = some c) ∧
      ((dropPlan env st timeline dropRange).1.map (·.id)).Nodup ∧
      ∀ c ∈ (dropPlan env st timeline dropRange).2.1, c.WellFormed := by
  have hphysical : ∀ c ∈ ((toList st.physicalChunksPerChunkId).insertionSort
      fun a b => a.1 ≤ b.1).map (·.2), st.physical c.id = some c := by
    intro c hc
    obtain ⟨e, he, rfl⟩ := mem_map.mp hc
    have hlookup := mem_toList.mp ((mem_insertionSort _).mp he)
    rw [hv.id_eq _ _ hlookup]
    exact hlookup
  have hnodup : ((((toList st.physicalChunksPerChunkId).insertionSort
      fun a b => a.1 ≤ b.1).map (·.2)).map (·.id)).Nodup := by
    have hids : ∀ e ∈ (toList st.physicalChunksPerChunkId).insertionSort fun a b => a.1 ≤ b.1,
        e.2.id = e.1 := fun e he =>
      hv.id_eq _ _ (mem_toList.mp ((mem_insertionSort _).mp he))
    have hperm := (perm_insertionSort (fun a b : ChunkId × Chunk => a.1 ≤ b.1)
      (toList st.physicalChunksPerChunkId)).map Prod.fst
    have hkeys : ((toList st.physicalChunksPerChunkId).map Prod.fst).Nodup := by
      unfold toList
      rw [map_map]
      exact st.physicalChunksPerChunkId.nodupKeys
    have hmap : (((toList st.physicalChunksPerChunkId).insertionSort fun a b => a.1 ≤ b.1).map
        (·.2)).map (·.id) =
        ((toList st.physicalChunksPerChunkId).insertionSort fun a b => a.1 ≤ b.1).map Prod.fst := by
      rw [map_map]
      exact map_congr_left hids
    rw [hmap]
    exact hperm.nodup_iff.mpr hkeys
  obtain ⟨hsub, hwf⟩ := @planDrop_spec env timeline dropRange _ 0 fun c hc =>
    (hv.chunk _ _ (hphysical c hc)).wf
  exact ⟨fun c hc => hphysical c (hsub.subset hc), hnodup.sublist (hsub.map _), hwf⟩

theorem dropTimeRange_balances {insertEnv : Nat → Env} (h : st.Countable)
    {timeline : TimelineName} {dropRange : AbsoluteTimeRange} {deepRemoval : Bool}
    {reason : ChunkDeletionReason}
    (hnew : SlicesNew env insertEnv 0 (dropPlan env st timeline dropRange).2.2
      (removeEach deepRemoval reason st (dropPlan env st timeline dropRange).1).1
      (dropPlan env st timeline dropRange).2.1) :
    (dropTimeRange env insertEnv st timeline dropRange deepRemoval reason).1.Countable ∧
      ∃ diffs, (dropTimeRange env insertEnv st timeline dropRange deepRemoval reason).2 = .ok diffs ∧
        Balances st diffs (dropTimeRange env insertEnv st timeline dropRange deepRemoval reason).1 := by
  obtain ⟨hphysical, hnodup, hwf⟩ := dropPlan_spec h.sound env timeline dropRange
  obtain ⟨hcountable, hbalances⟩ := removeEach_balances deepRemoval reason h hphysical hnodup
  obtain ⟨hcountable', diffs, hok, hbalances'⟩ := insertSlices_balances hcountable hwf hnew
  unfold dropTimeRange
  split
  · exact ⟨h, [], rfl, .of_eq rfl⟩
  · refine ⟨hcountable', _, ?_, hbalances.trans hbalances'⟩
    exact congrArg (Except.map _) hok

/-! ## Runs -/

end ChunkStore

/-- The calls that return events. -/
inductive Call where
  | insertDlrManifest (manifest : DlrManifest)
  | insertChunk (env : Env) (c : ValidChunk)
  | gc (options : GarbageCollectionOptions) (clock : GcClock)
  | dropEntityPath (entity : EntityPath)
  | dropTimeRange (env : Env) (insertEnv : Nat → Env) (timeline : TimelineName)
      (dropRange : AbsoluteTimeRange) (deepRemoval : Bool) (reason : ChunkDeletionReason)

namespace Call

open ChunkStore

/-- The events of a call: none if it fails. -/
def eventsOf : Except ChunkStoreError (List ChunkStoreDiff) → List ChunkStoreDiff
  | .ok diffs => diffs
  | .error _ => []

/-- The store a call leaves, and its events. -/
def run (st : ChunkStore) : Call → ChunkStore × List ChunkStoreDiff
  | insertDlrManifest manifest => st.insertDlrManifest manifest
  | insertChunk env c =>
    let result := ChunkStore.insertChunk env st c.toChunk
    (result.1, eventsOf result.2)
  | gc options clock => st.gc options clock
  | dropEntityPath entity => st.dropEntityPath entity
  | dropTimeRange env insertEnv timeline dropRange deepRemoval reason =>
    let result := ChunkStore.dropTimeRange env insertEnv st timeline dropRange deepRemoval reason
    (result.1, eventsOf result.2)

/-- The ids a call draws are new. -/
def Possible (st : ChunkStore) : Call → Prop
  | insertChunk env c => Fresh env st c.toChunk
  | dropTimeRange env insertEnv timeline dropRange deepRemoval reason =>
    SlicesNew env insertEnv 0 (dropPlan env st timeline dropRange).2.2
      (removeEach deepRemoval reason st (dropPlan env st timeline dropRange).1).1
      (dropPlan env st timeline dropRange).2.1
  | _ => True

/-- An accepted chunk that a manifest announced occupies no key of the virtual indices, and a
collection marks no chunk twice. -/
def Countable (st : ChunkStore) : Call → Prop
  | insertChunk _ c => st.Accepts c.toChunk → st.ReplacesQuietly c.toChunk
  | gc options clock => ((st.gcMarked options clock).map (·.id)).Nodup
  | _ => True

theorem run_countable {st : ChunkStore} {call : Call} (h : st.Countable) (hcall : call.Possible st) :
    (call.run st).1.Countable := by
  cases call with
  | insertDlrManifest manifest =>
    have hsound := @Op.run_sound st (.insertDlrManifest manifest) h.sound trivial
    exact ⟨hsound, h.pieces.of_eq (insertDlrManifest_maps st manifest).2⟩
  | insertChunk env c =>
    exact ⟨insertChunk_sound h.sound hcall, insertChunk_piecesDistinct h.sound h.pieces c.wf hcall⟩
  | gc options clock => exact h.recedes (gc_removes h.sound options clock).1 (gc_recedes st options clock)
  | dropEntityPath e =>
    have hsound := @Op.run_sound st (.dropEntityPath e) h.sound trivial
    refine ⟨hsound, h.pieces.of_eq ?_⟩
    exact congrArg LineageDroppingCtx.danglingSplits (dropEntityPath_frame st e).1
  | dropTimeRange env insertEnv timeline dropRange deepRemoval reason => exact (dropTimeRange_balances h hcall).1

theorem run_balances {st : ChunkStore} {call : Call} (h : st.Countable) (hcall : call.Possible st)
    (hcount : call.Countable st) :
    (call.run st).1.Countable ∧ Balances st (call.run st).2 (call.run st).1 := by
  refine ⟨run_countable h hcall, ?_⟩
  cases call with
  | insertDlrManifest manifest =>
    have hannounces := insertDlrManifest_announces st manifest
    refine .single fun rowId => ?_
    have hsame : ∀ id, (st.insertDlrManifest manifest).1.physical id = st.physical id :=
      congrFun hannounces.chunks
    have hperm : (st.insertDlrManifest manifest).1.physicalChunks.Perm st.physicalChunks :=
      (physicalChunks_subperm fun id c hc => (hsame id).symm.trans hc).antisymm
        (physicalChunks_subperm fun id c hc => (hsame id).trans hc)
    have hdelta : (virtualAddition manifest).rowDelta rowId = 0 := rfl
    exact congrArg Nat.cast (rowCount_perm hperm rowId)
  | insertChunk env c =>
    show Balances st (eventsOf (ChunkStore.insertChunk env st c.toChunk).2) _
    by_cases hacc : st.Accepts c.toChunk
    · obtain ⟨diffs, hok, hbalances⟩ := insertChunk_balances h.sound h.pieces c.wf hcall hacc (hcount hacc)
      rw [hok]
      exact hbalances
    · have hnone : eventsOf (ChunkStore.insertChunk env st c.toChunk).2 = [] := by
        rcases @insertChunk_result_of_not_accepts _ _ env hacc with hok | ⟨-, e, herror⟩
        · rw [hok]
          rfl
        · rw [herror]
          rfl
      rw [hnone]
      exact .of_eq (congrArg physicalChunksPerChunkId (insertChunk_of_not_accepts hacc))
  | gc options clock => exact gc_balances h.sound hcount
  | dropEntityPath e => exact dropEntityPath_balances st e
  | dropTimeRange env insertEnv timeline dropRange deepRemoval reason =>
    obtain ⟨-, diffs, hok, hbalances⟩ := dropTimeRange_balances h hcall
    show Balances st (eventsOf (ChunkStore.dropTimeRange env insertEnv st timeline dropRange deepRemoval
      reason).2) _
    rw [hok]
    exact hbalances

end Call

namespace ChunkStore

inductive EventRun (allowed : ChunkStore → Call → Prop) : ChunkStore → List ChunkStoreDiff → Prop
  | new (config : ChunkSplitConfig) : EventRun allowed (.new config) []
  | step {st : ChunkStore} {diffs : List ChunkStoreDiff} {call : Call} (h : EventRun allowed st diffs)
      (hcall : call.Possible st) (hallowed : allowed st call) :
      EventRun allowed (call.run st).1 (diffs ++ (call.run st).2)

variable {st : ChunkStore} {diffs : List ChunkStoreDiff}

theorem new_countable (config : ChunkSplitConfig) : (ChunkStore.new config).Countable := by
  refine ⟨⟨fun id c hc => ?_, fun id c hc => ?_⟩, new_piecesDistinct config⟩
  · cases hc
  · cases hc

theorem EventRun.countable {allowed : ChunkStore → Call → Prop} (h : EventRun allowed st diffs) : st.Countable := by
  induction h with
  | new config => exact new_countable config
  | step _ hcall _ ih => exact Call.run_countable ih hcall

theorem EventRun.balances (h : EventRun (fun st call => call.Countable st) st diffs) :
    st.Countable ∧ ∃ config, Balances (.new config) diffs st := by
  induction h with
  | new config => exact ⟨new_countable config, config, .of_eq rfl⟩
  | step _ hcall hcount ih =>
    obtain ⟨hcountable, config, hbalances⟩ := ih
    obtain ⟨hcountable', hbalances'⟩ := Call.run_balances hcountable hcall hcount
    exact ⟨hcountable', config, hbalances.trans hbalances'⟩

/-- In every run that loads no announced chunk over occupied keys and marks no chunk twice, a
subscriber's counts are those of the physical chunks, and never negative. -/
theorem eventRun_balanced (h : EventRun (fun st call => call.Countable st) st diffs) (rowId : RowId) :
    eventBalance diffs rowId = rowCount st.physicalChunks rowId ∧ ∀ n, 0 ≤ eventBalance (diffs.take n) rowId := by
  obtain ⟨-, config, hbalances⟩ := h.balances
  have hnew : rowCount (ChunkStore.new config).physicalChunks rowId = 0 := rfl
  have htotal := hbalances.total rowId
  refine ⟨by omega, fun n => ?_⟩
  have hfloor := hbalances.floor rowId n
  omega

def insertionAndCollection : List ChunkStoreDiff :=
  ((Call.insertChunk (.countingFrom 100) oneRowChunk).run (.new ⟨0, 0, 0⟩)).2 ++
    ((Call.gc ⟨.everything, 0, ∅, [], none, true⟩ .unlimited).run oneRowStore).2

theorem insertionAndCollection_balanced :
    eventBalance insertionAndCollection 1 = rowCount ((Call.gc ⟨.everything, 0, ∅, [], none, true⟩
        .unlimited).run oneRowStore).1.physicalChunks 1 ∧
      ∀ n, 0 ≤ eventBalance (insertionAndCollection.take n) 1 := by
  have hroot : ¬ (ChunkStore.new ⟨0, 0, 0⟩).isRootFromManifest oneRowChunk.id = true := by decide
  have hinsert : EventRun (fun st call => call.Countable st) oneRowStore
      ([] ++ ((Call.insertChunk (.countingFrom 100) oneRowChunk).run (.new ⟨0, 0, 0⟩)).2) :=
    @EventRun.step _ _ _ (.insertChunk (.countingFrom 100) oneRowChunk) (.new ⟨0, 0, 0⟩)
      fresh_countingFrom fun _ h => absurd h hroot
  have hcollect : (Call.gc ⟨.everything, 0, ∅, [], none, true⟩ .unlimited).Countable oneRowStore := by
    show List.Nodup _
    decide
  have hrun : EventRun (fun st call => call.Countable st)
      ((Call.gc ⟨.everything, 0, ∅, [], none, true⟩ .unlimited).run oneRowStore).1 insertionAndCollection :=
    .step hinsert trivial hcollect
  exact eventRun_balanced hrun 1

/-- A manifest announces a chunk, and the chunk is loaded: its rows count for nothing, and for less
than nothing on the way. -/
theorem loadedStore_not_balanced :
    ∃ diffs, EventRun (fun _ _ => True) loadedStore diffs ∧
      eventBalance diffs 1 ≠ rowCount loadedStore.physicalChunks 1 ∧ eventBalance (diffs.take 2) 1 < 0 := by
  have hannounced : EventRun (fun _ _ => True) announcedStore
      ([] ++ ((Call.insertDlrManifest interleavedManifest).run (.new ⟨0, 0, 0⟩)).2) :=
    @EventRun.step _ _ _ (.insertDlrManifest interleavedManifest) (.new ⟨0, 0, 0⟩) trivial trivial
  exact ⟨_, @EventRun.step _ _ _ (.insertChunk (.countingFrom 100) interleavedChunk) hannounced
    fresh_countingFrom trivial, by decide, by decide⟩

end ChunkStore

end Dalaran
