import Dalaran.Store.Duplicates

/-
  The row a latest-at query selects (`dl_chunk/src/latest_at.rs`, `unit_chunk.rs`).

  A query asks the store for the chunks that may hold the row, each chunk for its
  own row, and takes the one with the greatest index, a time and a row id.

  Which chunks may hold the row is decided by their starts: those at or before the
  time and not further before the last of them than the longest interval
  (`mem_latestAt`).

  Correspondence (Rust ↔ Lean):
    `Chunk::latest_at` ↔ `Chunk.latestAt`, the index of the row
    `UnitChunkShared::index` ↔ `Chunk.unitIndex`
    `LatestAtCache::latest_at` on a cache miss, `query_latest_array` in `tests/gc.rs` ↔ `ChunkStore.queryLatest`
-/

namespace Dalaran

open List Option ChunkIdSetPerTime

def LatestAtQuery.latest (timeline : TimelineName) : LatestAtQuery := ⟨some timeline, TimeInt.MAX⟩

/-! ## The row of a chunk -/

namespace Chunk

/-- The last valid row before row `n`. -/
def lastValid (isValid : Nat → Bool) (n : Nat) : Option Nat := (List.range n).reverse.find? isValid

/-- The valid row with the greatest row id; row id zero is never greater than the initial one. -/
def closestRowId (c : Chunk) (isValid : Nat → Bool) : Option Nat :=
  (c.rowIds.zipIdx.foldl (fun acc r =>
    if isValid r.2 && decide (acc.1 < r.1) then (r.1, some r.2) else acc)
    ((0 : RowId), (none : Option Nat))).2

/-- The valid row that is closest to a time, by its row id among rows of one time. -/
def closestTime (c : Chunk) (isValid : Nat → Bool) (times : List I64) (at_ : TimeInt) : Option Nat :=
  (c.rowIds.zipIdx.foldl (fun acc r =>
    let dataTime := (times[r.2]?).elim TimeInt.MIN TimeInt.newTemporal
    let isCloserTime := decide (acc.1 < dataTime) && decide (dataTime ≤ at_)
    let isSameTimeButCloserRowId := decide (dataTime = acc.1) && decide (acc.2.1 < r.1)
    if isValid r.2 && (isCloserTime || isSameTimeButCloserRowId) then (dataTime, r.1, some r.2) else acc)
    (TimeInt.MIN, (0 : RowId), (none : Option Nat))).2.2

/-- The row of a chunk that a latest-at query selects. -/
def latestAt (c : Chunk) (query : LatestAtQuery) (component : ComponentIdentifier) : Option Nat :=
  if c.isEmpty then none
  else
    (c.components.lookup component).bind fun column =>
      let isValid := fun i => decide (column.listArray.validity[i]? = some true)
      if c.isStatic then
        if c.isSorted then lastValid isValid c.numRows else c.closestRowId isValid
      else
        (query.timeline.bind fun timeline => c.timelines.lookup timeline).bind fun tc =>
          if tc.isSorted then
            let i := (tc.times.takeWhile fun time => decide (time ≤ query.at_.asI64)).length - 1
            lastValid isValid (i + 1)
          else c.closestTime isValid tc.times query.at_

def unitIndex (c : Chunk) (timeline : Option TimelineName) (i : Nat) : Option (TimeInt ×ₗ RowId) :=
  if c.isStatic then (c.rowIds[i]?).map fun rowId => toLex (TimeInt.STATIC, rowId)
  else do
    let tc ← timeline.bind fun timeline => c.timelines.lookup timeline
    let time ← tc.times[i]?
    let rowId ← c.rowIds[i]?
    return toLex (TimeInt.newTemporal time, rowId)

def latestIndex (query : LatestAtQuery) (component : ComponentIdentifier) (c : Chunk) : Option (TimeInt ×ₗ RowId) :=
  (c.latestAt query component).bind fun i => c.unitIndex query.timeline i

end Chunk

/-! ## The row of a store -/

namespace ChunkStore

/-- The physical chunks that may hold the row, missing ones ignored. -/
def relevantChunks (st : ChunkStore) (query : LatestAtQuery) (e : EntityPath)
    (component : ComponentIdentifier) : List Chunk :=
  (st.latestAtRelevantChunks .ignore query e component).elim [] fun results => results.chunks

/-- The index of the row that a query selects. -/
def queryLatest (st : ChunkStore) (query : LatestAtQuery) (e : EntityPath)
    (component : ComponentIdentifier) : Option (TimeInt ×ₗ RowId) :=
  ((st.relevantChunks query e component).filterMap (Chunk.latestIndex query component)).max?

end ChunkStore

/-! ## Which starts are looked at -/

namespace ChunkIdSetPerTime

variable {s : ChunkIdSetPerTime} {t u : TimeInt} {id : ChunkId}

theorem mem_startTimes : u ∈ s.startTimes ↔ ∃ id, toLex (u, id) ∈ s.perStartTime := by
  unfold startTimes
  rw [List.mem_map]
  constructor
  · rintro ⟨p, hp, rfl⟩
    exact ⟨(ofLex p).2, hp⟩
  · rintro ⟨id, hid⟩
    exact ⟨toLex (u, id), hid, rfl⟩

theorem startTimes_sorted (s : ChunkIdSetPerTime) : s.startTimes.Pairwise (· ≤ ·) := by
  refine pairwise_map.mpr (s.perStartTime.sorted.imp ?_)
  intro p q hpq
  rcases Prod.Lex.lt_iff.mp hpq with h | ⟨h, -⟩
  · exact h.le
  · exact h.le

theorem lastStartAt_eq_some_iff : s.lastStartAt t = some u ↔
    (u ∈ s.startTimes ∧ u ≤ t) ∧ ∀ u' ∈ s.startTimes, u' ≤ t → u' ≤ u := by
  have hsorted : Seq.ascending (s.startTimes.filter fun u => decide (u ≤ t)) = true :=
    Seq.ascending_iff.mpr (s.startTimes_sorted.filter _)
  have hmem : ∀ {u'}, u' ∈ s.startTimes.filter (fun u => decide (u ≤ t)) ↔ u' ∈ s.startTimes ∧ u' ≤ t := by
    intro u'
    simp
  unfold lastStartAt
  constructor
  · intro h
    refine ⟨hmem.mp (mem_of_getLast? h), fun u' hu' hle => ?_⟩
    exact Seq.le_getLast?_of_ascending hsorted h (hmem.mpr ⟨hu', hle⟩)
  · rintro ⟨hu, hmax⟩
    obtain ⟨last, hlast⟩ := ne_none_iff_exists'.mp fun hnone =>
      ne_nil_of_mem (hmem.mpr hu) (List.getLast?_eq_none_iff.mp hnone)
    have h1 := Seq.le_getLast?_of_ascending hsorted hlast (hmem.mpr hu)
    have h2 := hmem.mp (mem_of_getLast? hlast)
    rw [hlast, le_antisymm (hmax last h2.1 h2.2) h1]

theorem mem_latestAt : id ∈ (s.latestAt t).getD [] ↔
    ∃ u, toLex (u, id) ∈ s.perStartTime ∧ u ≤ t ∧ ∀ u' ∈ s.startTimes, u' ≤ t →
      u'.asI64.saturatingSub (I64.ofLength s.maxIntervalLength) ≤ u.asI64 := by
  unfold latestAt
  cases hlast : s.lastStartAt t with
  | none =>
    simp only [map_none, getD_none, not_mem_nil, false_iff]
    rintro ⟨u, hu, hle, -⟩
    have hne : s.startTimes.filter (fun u => decide (u ≤ t)) ≠ [] :=
      ne_nil_of_mem (mem_filter.mpr ⟨mem_startTimes.mpr ⟨id, hu⟩, decide_eq_true hle⟩)
    exact hne (List.getLast?_eq_none_iff.mp hlast)
  | some upper =>
    obtain ⟨⟨hupper, hle⟩, hmax⟩ := lastStartAt_eq_some_iff.mp hlast
    simp only [map_some, getD_some, mem_flatMap, mem_idsAt]
    have hdesc : ((s.startTimes.dedup.filter fun u => decide (u ≤ t)).reverse).Pairwise
        (fun a b => decide (upper.asI64.saturatingSub (I64.ofLength s.maxIntervalLength) ≤ b.asI64) = true →
          decide (upper.asI64.saturatingSub (I64.ofLength s.maxIntervalLength) ≤ a.asI64) = true) := by
      rw [pairwise_reverse]
      have hsorted : s.startTimes.dedup.Pairwise (· ≤ ·) :=
        s.startTimes_sorted.sublist (dedup_sublist _)
      refine (hsorted.filter _).imp fun {a b} hab h => ?_
      exact decide_eq_true ((of_decide_eq_true h).trans hab)
    constructor
    · rintro ⟨u, hu, hid⟩
      obtain ⟨hmem, hlower⟩ := (Seq.mem_takeWhile_of_pairwise hdesc).mp hu
      have hut : u ≤ t := of_decide_eq_true (mem_filter.mp (mem_reverse.mp hmem)).2
      refine ⟨u, hid, hut, fun u' hu' hle' => ?_⟩
      exact (I64.saturatingSub_mono (hmax u' hu' hle') _).trans (of_decide_eq_true hlower)
    · rintro ⟨u, hid, hut, hlower⟩
      refine ⟨u, (Seq.mem_takeWhile_of_pairwise hdesc).mpr ⟨?_, decide_eq_true (hlower upper hupper hle)⟩, hid⟩
      refine mem_reverse.mpr (mem_filter.mpr ⟨?_, decide_eq_true hut⟩)
      exact List.mem_dedup.mpr (mem_startTimes.mpr ⟨id, hid⟩)

end ChunkIdSetPerTime

/-! ## Which chunks are looked at -/

/-- An id is listed at or before a time, and within the longest interval of every start there. -/
def Catalog.InWindow (v : Catalog) (e : EntityPath) (timeline : TimelineName)
    (component : ComponentIdentifier) (at_ : TimeInt) (id : ChunkId) : Prop :=
  ∃ u, v.listed id (.component e timeline component .start u) ∧ u ≤ at_ ∧
    ∀ id' u', v.listed id' (.component e timeline component .start u') → u' ≤ at_ →
      u'.asI64.saturatingSub (I64.ofLength (v.longest (e, timeline, component))) ≤ u.asI64

namespace ChunkStore

variable {st : ChunkStore} {query : LatestAtQuery} {e : EntityPath} {component : ComponentIdentifier}

theorem mem_latestAtChunkIds {id : ChunkId} : id ∈ st.latestAtChunkIds query e component ↔
    ∃ timeline, query.timeline = some timeline ∧ st.catalog.InWindow e timeline component query.at_ id := by
  unfold latestAtChunkIds
  cases query.timeline with
  | none => simp
  | some timeline =>
    simp only [bind_some, Option.some.injEq, exists_eq_left']
    cases hs : st.temporalChunkIdsPerEntityPerComponent.lookup (e, timeline, component) with
    | none =>
      simp only [bind_none, getD_none, not_mem_nil, false_iff]
      rintro ⟨u, ⟨s, hs', -⟩, -⟩
      rw [hs] at hs'
      cases hs'
    | some s =>
      have hlisted : ∀ id' u', st.catalog.listed id' (.component e timeline component .start u') ↔
          toLex (u', id') ∈ s.perStartTime := by
        intro id' u'
        constructor
        · rintro ⟨s', hs', hmem⟩
          rw [hs] at hs'
          rw [some.inj hs']
          exact hmem
        · exact fun hmem => ⟨s, hs, hmem⟩
      have hlength : st.catalog.longest (e, timeline, component) = s.maxIntervalLength := by
        show TimeIndex.maxLength _ _ = _
        unfold TimeIndex.maxLength
        rw [hs]
        rfl
      unfold Catalog.InWindow
      simp only [bind_some, mem_latestAt, hlisted, hlength, mem_startTimes, forall_exists_index]
      refine exists_congr fun u => and_congr_right fun _ => and_congr_right fun _ => ?_
      exact forall_comm

/-- The ids a query asks for: the static one, or those in the window. -/
def AsksFor (st : ChunkStore) (query : LatestAtQuery) (e : EntityPath) (component : ComponentIdentifier)
    (id : ChunkId) : Prop :=
  match st.staticChunkIdsPerEntity.lookup (e, component) with
  | some staticId => id = staticId
  | none => ∃ timeline, query.timeline = some timeline ∧ st.catalog.InWindow e timeline component query.at_ id

theorem mem_relevantChunks {c : Chunk} : c ∈ st.relevantChunks query e component ↔
    ∃ id, st.physical id = some c ∧ st.AsksFor query e component id := by
  have hignore : ∀ ids : List ChunkId,
      (QueryResults.fromChunkIds st .ignore ids).elim [] (fun results => results.chunks) =
        ids.filterMap st.physical := fun ids => by simp [QueryResults.fromChunkIds]
  unfold relevantChunks latestAtRelevantChunks AsksFor
  cases st.staticChunkIdsPerEntity.lookup (e, component) with
  | some staticId =>
    rw [hignore, mem_filterMap]
    constructor
    · rintro ⟨id, hid, hc⟩
      exact ⟨id, hc, mem_singleton.mp hid⟩
    · rintro ⟨id, hc, rfl⟩
      exact ⟨id, mem_singleton.mpr rfl, hc⟩
  | none =>
    rw [hignore, mem_filterMap]
    simp only [mem_latestAtChunkIds]
    exact exists_congr fun id => and_comm

end ChunkStore

end Dalaran
