import Mathlib.Data.List.Destutter
import Dalaran.Base.Tally
import Dalaran.Query.Clears
import Dalaran.Query.Recording
import Dalaran.Store.DroppingEntities

/-
  All rows of the latest time (`dl_query/src/latest_all.rs`).

  A latest-all query asks latest-at which row of a component is the latest, and
  then asks for the range of its time alone. Of static data it returns that one row,
  as the source says.

  The range query knows nothing of tombstones, so it also returns rows that latest-at
  would drop, if they share the time with one that it does not. And where its walk
  over the starts does not reach a chunk, the rows of that chunk are left out.
  `recordingRun_latestAll` says that these are all.

  Correspondence (Rust ↔ Lean):
    its loop over the components ↔ `latestAllComponent`
-/

namespace Dalaran

open List Option Chunk AbsoluteTimeRange QueryCache Assoc

/-! ## The query -/

namespace UnitChunkShared

def intoChunk (env : Env) (k : Nat) (unit : UnitChunkShared) : Chunk :=
  unit.chunk.rowSlicedShallow (env.newId k) (env.sizeBytes (env.newId k)) unit.row 1

def toRow (unit : UnitChunkShared) : Option Row := unit.chunk.rows[unit.row]?

end UnitChunkShared

def RangeQuery.new (timeline : TimelineName) (range : AbsoluteTimeRange) : RangeQuery :=
  ⟨timeline, range, ⟨false, false, false⟩⟩

structure LatestAllComponentResults where
  time : TimeInt
  chunks : List Chunk

namespace LatestAllComponentResults

def fromUnit (env : Env) (k : Nat) (time : TimeInt) (unit : UnitChunkShared) : LatestAllComponentResults :=
  ⟨time, [unit.intoChunk env k]⟩

def unitsOf (c : Chunk) : List (RowId × UnitChunkShared) :=
  c.rowIds.mapIdx fun i rowId => (rowId, ⟨c, i⟩)

/-- All hits, in the order of their row ids. -/
def iterUnits (results : LatestAllComponentResults) : List UnitChunkShared :=
  ((results.chunks.flatMap unitsOf).insertionSort fun a b => a.1 ≤ b.1).map Prod.snd

def hits (results : LatestAllComponentResults) : List Row := results.iterUnits.filterMap UnitChunkShared.toRow

end LatestAllComponentResults

structure LatestAllResults where
  missingVirtual : List ChunkId
  components : Assoc ComponentIdentifier LatestAllComponentResults

namespace LatestAllResults

def add (results : LatestAllResults) (component : ComponentIdentifier) (hits : LatestAllComponentResults) :
    LatestAllResults :=
  { results with components := AList.insert component hits results.components }

def addRange (results : LatestAllResults) (component : ComponentIdentifier) (time : TimeInt) (range : RangeResults) :
    LatestAllResults where
  missingVirtual := results.missingVirtual ++ range.missingVirtual
  components :=
    match range.components.lookup component with
    | some chunks => AList.insert component ⟨time, chunks⟩ results.components
    | none => results.components

def hits (results : LatestAllResults) (component : ComponentIdentifier) : List Row :=
  (results.components.lookup component).elim [] LatestAllComponentResults.hits

end LatestAllResults

namespace FullQueryCache

def latestAllComponent (env : Env) (mode : ChunkTrackingMode) (st : ChunkStore) (query : LatestAtQuery)
    (e : EntityPath) (acc : FullQueryCache × LatestAllResults × Nat)
    (latest : ComponentIdentifier × UnitChunkShared) : Option (FullQueryCache × LatestAllResults × Nat) :=
  match latest.2.index query.timeline with
  | none => some acc
  | some index =>
    let time := (ofLex index).1
    if time = TimeInt.STATIC then
      some (acc.1, acc.2.1.add latest.1 (.fromUnit env acc.2.2 time latest.2), acc.2.2 + 1)
    else
      match query.timeline with
      | none => some acc
      | some timeline =>
        (acc.1.range env acc.2.2 mode st (.new timeline (.new time time)) e [latest.1]).map fun answer =>
          (answer.1, acc.2.1.addRange latest.1 time answer.2.1, answer.2.2)

def latestAll (env : Env) (k : Nat) (isRecursive : Cell → Bool) (cache : FullQueryCache)
    (mode : ChunkTrackingMode) (st : ChunkStore) (query : LatestAtQuery) (e : EntityPath)
    (components : List ComponentIdentifier) : Option (FullQueryCache × LatestAllResults × Nat) :=
  (cache.toQueryCache.latestAt isRecursive mode st query e components).bind fun latest =>
    ((Assoc.toList latest.2.components).foldlM (latestAllComponent env mode st query e)
      ({ latest.1 with rangePerCacheKey := cache.rangePerCacheKey },
        (⟨latest.2.missingVirtual, ∅⟩ : LatestAllResults), k)).map fun out =>
      (out.1, { out.2.1 with
        missingVirtual := (out.2.1.missingVirtual.insertionSort (· ≤ ·)).destutter (· ≠ ·) }, out.2.2)

end FullQueryCache

/-! ## What it asks for -/

/-- A row has a cell of the component, and the time: a row of a static chunk has the static one. -/
def Chunk.isHit (c : Chunk) (timeline : Option TimelineName) (component : ComponentIdentifier) (time : TimeInt)
    (row : Row) : Bool :=
  (row.cells component).isSome &&
    if c.isStatic then decide (time = TimeInt.STATIC)
    else (timeline.bind row.times).any fun t => decide (TimeInt.newTemporal t = time)

def Chunk.hits (c : Chunk) (timeline : Option TimelineName) (component : ComponentIdentifier) (time : TimeInt) :
    List Row :=
  c.rows.filter (c.isHit timeline component time)

/-- What a query about a component sees of a row. -/
def Row.seen (timeline : Option TimelineName) (component : ComponentIdentifier) (row : Row) : Row where
  entityPath := row.entityPath
  rowId := row.rowId
  times := fun name => if timeline = some name then row.times name else none
  cells := fun name => if name = component then row.cells name else none

namespace ChunkStore

variable {st : ChunkStore} {query : LatestAtQuery} {e : EntityPath} {component : ComponentIdentifier}
  {isRecursive : Cell → Bool} {time : TimeInt}

def chunksOf (st : ChunkStore) (e : EntityPath) : List Chunk :=
  st.physicalChunks.filter fun c => decide (c.entityPath = e)

def hits (st : ChunkStore) (timeline : Option TimelineName) (e : EntityPath) (component : ComponentIdentifier)
    (time : TimeInt) : List Row :=
  (st.chunksOf e).flatMap fun c => c.hits timeline component time

/-- A tombstone applies to a row at an index. Tombstones do not hide themselves. -/
def Hides (isRecursive : Cell → Bool) (st : ChunkStore) (query : LatestAtQuery) (e : EntityPath)
    (component : ComponentIdentifier) (index : TimeInt ×ₗ RowId) : Prop :=
  component ≠ clearIsRecursive ∧ st.Hidden isRecursive query e index

open Classical in
/-- Those to which no tombstone applies. -/
noncomputable def visibleHits (isRecursive : Cell → Bool) (st : ChunkStore) (query : LatestAtQuery)
    (e : EntityPath) (component : ComponentIdentifier) (time : TimeInt) : List Row :=
  (st.hits query.timeline e component time).filter fun row =>
    decide (¬ st.Hides isRecursive query e component (toLex (time, row.rowId)))

/-- The walk of a range query over the one time reaches the chunks of the visible hits, and no others. -/
def WalksVisible (isRecursive : Cell → Bool) (st : ChunkStore) (query : LatestAtQuery) (e : EntityPath)
    (component : ComponentIdentifier) (time : TimeInt) : Prop :=
  ∀ timeline, query.timeline = some timeline → ∀ c, st.physical c.id = some c → c.entityPath = e →
    ∀ row ∈ c.hits query.timeline component time,
      (st.WalkReaches e (.new timeline (.new time time)) component c ↔
        ¬ st.Hides isRecursive query e component (toLex (time, row.rowId)))

end ChunkStore

/-! ## The hits -/

namespace LatestAllComponentResults

variable {results : LatestAllComponentResults} {c : Chunk}

theorem toRow_of_mem_unitsOf {p : RowId × UnitChunkShared} (h : p ∈ unitsOf c) :
    p.2.toRow = some (c.rowAt p.2.row p.1) := by
  obtain ⟨i, hi, rfl⟩ := mem_mapIdx.mp h
  unfold UnitChunkShared.toRow
  rw [rows_getElem?, List.getElem?_eq_getElem hi]
  rfl

theorem unitsOf_rows (c : Chunk) : (unitsOf c).filterMap (fun p => p.2.toRow) = c.rows := by
  have hrows : c.rows = (unitsOf c).map fun p => c.rowAt p.2.row p.1 := by
    unfold unitsOf Chunk.rows
    rw [mapIdx_eq_iff]
    intro i
    rw [List.getElem?_map, List.getElem?_mapIdx, Option.map_map]
    rfl
  rw [hrows, ← filterMap_eq_map]
  exact filterMap_congr fun p hp => toRow_of_mem_unitsOf hp

theorem hits_eq (results : LatestAllComponentResults) : results.hits =
    ((results.chunks.flatMap unitsOf).insertionSort fun a b => a.1 ≤ b.1).filterMap fun p => p.2.toRow :=
  filterMap_map

theorem hits_perm (results : LatestAllComponentResults) : results.hits.Perm (results.chunks.flatMap Chunk.rows) := by
  have hrows : (results.chunks.flatMap unitsOf).filterMap (fun p => p.2.toRow) =
      results.chunks.flatMap Chunk.rows := by
    rw [filterMap_flatMap]
    exact flatMap_congr fun c _ => unitsOf_rows c
  rw [hits_eq, ← hrows]
  exact (perm_insertionSort _ _).filterMap _

theorem hits_sorted (results : LatestAllComponentResults) : results.hits.Pairwise fun a b => a.rowId ≤ b.rowId := by
  rw [hits_eq, pairwise_filterMap]
  have hsorted := pairwise_insertionSort (fun a b : RowId × UnitChunkShared => a.1 ≤ b.1)
    (results.chunks.flatMap unitsOf)
  refine hsorted.imp_of_mem fun {p q} hp hq hle a ha b hb => ?_
  have hid : ∀ {p : RowId × UnitChunkShared} {row : Row}, p ∈ (results.chunks.flatMap unitsOf).insertionSort
      (fun a b => a.1 ≤ b.1) → p.2.toRow = some row → row.rowId = p.1 := by
    intro p row hmem hrow
    obtain ⟨c, -, hc⟩ := mem_flatMap.mp ((perm_insertionSort _ _).mem_iff.mp hmem)
    obtain rfl := some.inj ((toRow_of_mem_unitsOf hc).symm.trans hrow)
    rfl
  rw [hid hp ha, hid hq hb]
  exact hle

theorem fromUnit_hits (env : Env) (k : Nat) (time : TimeInt) {unit : UnitChunkShared} {timeline : Option TimelineName}
    {index : TimeInt ×ₗ RowId} (hwf : unit.chunk.WellFormed) (hindex : unit.index timeline = some index) :
    ∃ row, unit.toRow = some row ∧ (fromUnit env k time unit).hits = [row] := by
  have hlt : unit.row < unit.chunk.numRows := by
    by_contra hge
    have hnone : unit.chunk.rowIds[unit.row]? = none := List.getElem?_eq_none (not_lt.mp hge)
    unfold UnitChunkShared.index Chunk.unitIndex at hindex
    rw [hnone] at hindex
    simp [bind] at hindex
  obtain ⟨row, hrow⟩ : ∃ row, unit.toRow = some row :=
    ⟨_, List.getElem?_eq_getElem (by rwa [rows_length])⟩
  refine ⟨row, hrow, ?_⟩
  have hrows : (unit.intoChunk env k).rows = [row] := by
    have htakes := rowSlicedShallow_takesRows hwf Nat.one_pos (Nat.succ_le_of_lt hlt) (env.newId k)
      (env.sizeBytes (env.newId k))
    unfold UnitChunkShared.intoChunk
    rw [htakes.rows_eq hwf fun i hi => by simp at hi; omega]
    unfold UnitChunkShared.toRow at hrow
    simp [Seq.permute, hrow]
  have hperm := hits_perm (fromUnit env k time unit)
  unfold fromUnit at hperm ⊢
  rw [flatMap_singleton, hrows] at hperm
  exact perm_singleton.mp hperm

end LatestAllComponentResults

/-! ## The range of one time -/

namespace AbsoluteTimeRange

theorem new_self {time : TimeInt} (htime : TimeInt.MIN ≤ time) : new time time = ⟨time, time⟩ := by
  unfold new
  rw [TimeInt.saturatedTemporal_of_le htime]

end AbsoluteTimeRange

namespace Chunk

variable {c : Chunk} {timeline : TimelineName} {component : ComponentIdentifier} {time : TimeInt} {i : Nat}
  {rowId : RowId}

theorem isHit_iff (hwf : c.WellFormed) (hstatic : c.isStatic = false) :
    c.isHit (some timeline) component time (c.rowAt i rowId) = true ↔
      ∃ t, c.HasCellAt timeline component i t ∧ time = ⟨t⟩ := by
  unfold isHit HasCellAt
  rw [hstatic, if_neg Bool.false_ne_true, Bool.and_eq_true, bind_some]
  show (c.cellAt i component).isSome = true ∧ (c.timeAt i timeline).any _ = true ↔ _
  constructor
  · intro ⟨hcell, htime⟩
    obtain ⟨t, ht, heq⟩ := (Option.any_eq_true _ _).mp htime
    refine ⟨t, ⟨ht, hcell⟩, ?_⟩
    rw [← newTemporal_timeAt hwf ht]
    exact (of_decide_eq_true heq).symm
  · intro ⟨t, ⟨ht, hcell⟩, heq⟩
    refine ⟨hcell, (Option.any_eq_true _ _).mpr ⟨t, ht, decide_eq_true ?_⟩⟩
    rw [newTemporal_timeAt hwf ht, heq]

theorem filter_asksFor (hwf : c.WellFormed) (hstatic : c.isStatic = false) (htime : TimeInt.MIN ≤ time) :
    c.rows.filter ((RangeQuery.new timeline (.new time time)).asksFor component) =
      c.hits (some timeline) component time := by
  apply filter_congr
  intro row hrow
  obtain ⟨i, hi, rfl⟩ := mem_mapIdx.mp hrow
  rw [Bool.eq_iff_iff, isHit_iff hwf hstatic]
  unfold RangeQuery.asksFor RangeQuery.new HasCellAt
  rw [new_self htime, Bool.and_eq_true]
  show (c.cellAt i component).isSome = true ∧ (c.timeAt i timeline).any _ = true ↔ _
  constructor
  · intro ⟨hcell, hany⟩
    obtain ⟨t, ht, hbetween⟩ := (Option.any_eq_true _ _).mp hany
    obtain ⟨hlo, hhi⟩ := Bool.and_eq_true_iff.mp hbetween
    refine ⟨t, ⟨ht, hcell⟩, ?_⟩
    exact congrArg TimeInt.mk (le_antisymm (of_decide_eq_true hlo) (of_decide_eq_true hhi))
  · intro ⟨t, ⟨ht, hcell⟩, heq⟩
    refine ⟨hcell, (Option.any_eq_true _ _).mpr ⟨t, ht, ?_⟩⟩
    rw [heq]
    simp

theorem meets_of_mem_hits (hwf : c.WellFormed) (htime : TimeInt.MIN ≤ time) {row : Row}
    (h : row ∈ c.hits (some timeline) component time) : ChunkStore.Meets c timeline component (.new time time) := by
  obtain ⟨hrow, hhit⟩ := mem_filter.mp h
  have hstatic : c.isStatic = false := by
    by_contra hne
    unfold isHit at hhit
    rw [if_pos (Bool.eq_true_of_not_eq_false hne), Bool.and_eq_true] at hhit
    rw [of_decide_eq_true hhit.2] at htime
    exact absurd htime (by decide)
  obtain ⟨i, hi, rfl⟩ := mem_mapIdx.mp hrow
  obtain ⟨t, hcell, rfl⟩ := (isHit_iff hwf hstatic).mp hhit
  obtain ⟨lo, hi', hrange, -, -, hall⟩ := componentRange_tight hwf hcell
  rw [new_self htime]
  exact ⟨_, hrange, (hall i t hcell).1, (hall i t hcell).2⟩

end Chunk

namespace Row

variable {timeline : TimelineName} {component : ComponentIdentifier}

theorem keep_eq_seen (range : AbsoluteTimeRange) :
    (RangeQuery.new timeline range).keep component = seen (some timeline) component := by
  funext row
  refine Row.ext rfl rfl (funext fun name => ?_) (funext fun name => ?_)
  · show (if _ then row.times name else none) = if _ then row.times name else none
    refine if_congr ?_ rfl rfl
    simp [RangeQuery.new, eq_comm]
  · show (if _ then row.cells name else none) = if _ then row.cells name else none
    refine if_congr ?_ rfl rfl
    simp [RangeQuery.new]

theorem seen_seen (timeline : Option TimelineName) (component : ComponentIdentifier) :
    seen timeline component ∘ seen timeline component = seen timeline component := by
  funext row
  refine Row.ext rfl rfl (funext fun name => ?_) (funext fun name => ?_)
  · show (if _ then (if _ then _ else _) else _) = if _ then _ else _
    split <;> rfl
  · show (if _ then (if _ then _ else _) else _) = if _ then _ else _
    split <;> rfl

end Row

namespace ChunkStore

variable {st : ChunkStore} {query : LatestAtQuery} {mode : ChunkTrackingMode} {e : EntityPath}
  {component : ComponentIdentifier} {isRecursive : Cell → Bool} {time : TimeInt} {timeline : TimelineName}
  {results : QueryResults} {rows : List Row}

theorem mem_chunksOf (hv : st.catalog.Sound) {c : Chunk} :
    c ∈ st.chunksOf e ↔ st.physical c.id = some c ∧ c.entityPath = e := by
  unfold chunksOf
  rw [mem_filter, mem_physicalChunks hv, decide_eq_true_iff]

open Classical in
theorem chunksOf_perm (hv : st.catalog.Sound) {chunks : List Chunk} (hnodup : chunks.Nodup)
    (hsub : ∀ c ∈ chunks, c ∈ st.chunksOf e) :
    (st.chunksOf e).Perm (chunks ++ (st.chunksOf e).filter fun c => !decide (c ∈ chunks)) := by
  have hsplit := filter_append_perm (fun c => decide (c ∈ chunks)) (st.chunksOf e)
  refine hsplit.symm.trans (.append_right _ ?_)
  have hall : (st.chunksOf e).Nodup := ((physicalChunks_ids_nodup hv).of_map _).filter _
  refine (perm_ext_iff_of_nodup (hall.filter _) hnodup).mpr fun c => ?_
  rw [mem_filter, decide_eq_true_iff]
  exact and_iff_right_of_imp (hsub c)

theorem seen_perm (hv : st.catalog.Filed) (htime : TimeInt.MIN ≤ time)
    (hmeets : ∀ c ∈ results.chunks, st.physical c.id = some c ∧ Meets c timeline component (.new time time))
    (hrows : rows.Perm (results.chunks.flatMap fun raw =>
      (raw.rows.filter ((RangeQuery.new timeline (.new time time)).asksFor component)).map
        ((RangeQuery.new timeline (.new time time)).keep component))) :
    (rows.map (Row.seen (some timeline) component)).Perm
      ((results.chunks.flatMap fun c => c.hits (some timeline) component time).map
        (Row.seen (some timeline) component)) := by
  have hflat : (results.chunks.flatMap fun raw =>
      (raw.rows.filter ((RangeQuery.new timeline (.new time time)).asksFor component)).map
        ((RangeQuery.new timeline (.new time time)).keep component)) =
      (results.chunks.flatMap fun c => c.hits (some timeline) component time).map
        (Row.seen (some timeline) component) := by
    rw [map_flatMap]
    refine flatMap_congr fun c hc => ?_
    obtain ⟨hphysical, range, hrange, -⟩ := hmeets c hc
    rw [filter_asksFor (hv.sound.chunk _ _ hphysical).wf (temporal_of_componentRange hrange) htime,
      Row.keep_eq_seen]
  have hmapped := hrows.map (Row.seen (some timeline) component)
  rwa [hflat, List.map_map, Row.seen_seen] at hmapped

theorem perm_visibleHits_iff (hv : st.catalog.Filed)
    (hstatic : st.staticChunkIdsPerEntity.lookup (e, component) = none)
    (htimeline : query.timeline = some timeline) (htime : TimeInt.MIN ≤ time)
    (hresults : st.rangeRelevantChunks mode (.new timeline (.new time time)) e component = some results)
    (hrows : rows.Perm (results.chunks.flatMap fun raw =>
      (raw.rows.filter ((RangeQuery.new timeline (.new time time)).asksFor component)).map
        ((RangeQuery.new timeline (.new time time)).keep component))) :
    (rows.map (Row.seen query.timeline component)).Perm
        ((st.visibleHits isRecursive query e component time).map (Row.seen query.timeline component)) ↔
      st.WalksVisible isRecursive query e component time := by
  classical
  obtain ⟨hnodup, hmem⟩ := mem_rangeRelevantChunks_of_filed hv hstatic hresults
  have hseen := seen_perm hv htime (fun c hc => ⟨((hmem c).mp hc).1, ((hmem c).mp hc).2.2.1⟩) hrows
  have hhits := (chunksOf_perm hv.sound hnodup fun c hc =>
    (mem_chunksOf hv.sound).mpr ⟨((hmem c).mp hc).1, ((hmem c).mp hc).2.1⟩).flatMap_right
      fun c => c.hits (some timeline) component time
  rw [flatMap_append] at hhits
  have hkey : ∀ a b : Row, Row.seen (some timeline) component a = Row.seen (some timeline) component b →
      decide (¬ st.Hides isRecursive query e component (toLex (time, a.rowId))) =
        decide (¬ st.Hides isRecursive query e component (toLex (time, b.rowId))) := by
    intro a b heq
    have hid := congrArg Row.rowId heq
    rw [show a.rowId = b.rowId from hid]
  have hfound := @map_perm_filter_append_iff _ _ _ _ hkey
    (results.chunks.flatMap fun c => c.hits (some timeline) component time)
    (((st.chunksOf e).filter fun c => !decide (c ∈ results.chunks)).flatMap fun c =>
      c.hits (some timeline) component time)
  unfold visibleHits hits WalksVisible
  rw [htimeline]
  have hvisible := (hhits.filter fun row =>
    decide (¬ st.Hides isRecursive query e component (toLex (time, row.rowId)))).map
      (Row.seen (some timeline) component)
  refine (Iff.trans ⟨fun h => hseen.symm.trans (h.trans hvisible), fun h => hseen.trans (h.trans hvisible.symm)⟩
    hfound).trans ?_
  -- a chunk with a hit is found exactly if the walk reaches it
  have hreach : ∀ c, st.physical c.id = some c → c.entityPath = e →
      ∀ row ∈ c.hits (some timeline) component time,
        (c ∈ results.chunks ↔ st.WalkReaches e (.new timeline (.new time time)) component c) := by
    intro c hphysical he row hrow
    rw [hmem]
    refine ⟨fun h => h.2.2.2, fun h => ⟨hphysical, he, ?_, h⟩⟩
    exact meets_of_mem_hits (hv.sound.chunk _ _ hphysical).wf htime hrow
  constructor
  · intro ⟨hin, hout⟩ timeline' htimeline' c hphysical he row hrow
    cases htimeline'
    rw [← hreach c hphysical he row hrow]
    by_cases hc : c ∈ results.chunks
    · exact iff_of_true hc (of_decide_eq_true (hin row (mem_flatMap.mpr ⟨c, hc, hrow⟩)))
    · refine iff_of_false hc (of_decide_eq_false (hout row (mem_flatMap.mpr ⟨c, ?_, hrow⟩)))
      exact mem_filter.mpr ⟨(mem_chunksOf hv.sound).mpr ⟨hphysical, he⟩, by simp [hc]⟩
  · intro hwalks
    refine ⟨fun row hrow => ?_, fun row hrow => ?_⟩
    · obtain ⟨c, hc, hrow⟩ := mem_flatMap.mp hrow
      obtain ⟨hphysical, he, -, hreached⟩ := (hmem c).mp hc
      exact decide_eq_true ((hwalks timeline rfl c hphysical he row hrow).mp hreached)
    · obtain ⟨c, hc, hrow⟩ := mem_flatMap.mp hrow
      obtain ⟨hchunk, hnot⟩ := mem_filter.mp hc
      obtain ⟨hphysical, he⟩ := (mem_chunksOf hv.sound).mp hchunk
      refine decide_eq_false fun hvisible => ?_
      have hreached := (hwalks timeline rfl c hphysical he row hrow).mpr hvisible
      simp [(hreach c hphysical he row hrow).mpr hreached] at hnot

end ChunkStore

/-! ## The answer -/

/-- All visible hits at the time of the row that latest-at found, in the order of their row ids. -/
def ChunkStore.ReturnsVisible (isRecursive : Cell → Bool) (st : ChunkStore) (query : LatestAtQuery)
    (e : EntityPath) (component : ComponentIdentifier) (latest : Option UnitChunkShared)
    (results : LatestAllResults) : Prop :=
  match latest with
  | none => results.components.lookup component = none
  | some unit => ∃ time rowId, unit.index query.timeline = some (toLex (time, rowId)) ∧
      (results.hits component).Pairwise (fun a b => a.rowId ≤ b.rowId) ∧
      ((results.hits component).map (Row.seen query.timeline component)).Perm
        ((st.visibleHits isRecursive query e component time).map (Row.seen query.timeline component))

/-- What the results say of a component: nothing, if latest-at found nothing; the row that it found, if
that is static; and else rows in the order of their ids, which are the visible hits exactly if the walk of
the range query reaches the chunks of those and no others. -/
def ChunkStore.IsLatestAll (isRecursive : Cell → Bool) (st : ChunkStore) (query : LatestAtQuery) (e : EntityPath)
    (component : ComponentIdentifier) (latest : Option UnitChunkShared) (results : LatestAllResults) : Prop :=
  match latest with
  | none => results.components.lookup component = none
  | some unit => ∃ time rowId, unit.index query.timeline = some (toLex (time, rowId)) ∧
      (∀ found, results.components.lookup component = some found → found.time = time) ∧
      (time = TimeInt.STATIC → ∃ row, unit.toRow = some row ∧ results.hits component = [row]) ∧
      (time ≠ TimeInt.STATIC → (results.hits component).Pairwise (fun a b => a.rowId ≤ b.rowId) ∧
        (st.ReturnsVisible isRecursive query e component (some unit) results ↔
          st.WalksVisible isRecursive query e component time))

theorem ChunkStore.IsLatestAll.congr {isRecursive : Cell → Bool} {st : ChunkStore} {query : LatestAtQuery}
    {e : EntityPath} {component : ComponentIdentifier} {latest : Option UnitChunkShared}
    {results results' : LatestAllResults}
    (hsame : results'.components.lookup component = results.components.lookup component)
    (h : st.IsLatestAll isRecursive query e component latest results) :
    st.IsLatestAll isRecursive query e component latest results' := by
  unfold IsLatestAll ReturnsVisible LatestAllResults.hits at h ⊢
  rw [hsame]
  exact h

namespace LatestAllResults

variable {results : LatestAllResults} {component other : ComponentIdentifier} {found : LatestAllComponentResults}
  {time : TimeInt} {range : RangeResults}

theorem add_lookup : (results.add component found).components.lookup component = some found :=
  AList.lookup_insert _

theorem add_lookup_ne (hne : other ≠ component) :
    (results.add component found).components.lookup other = results.components.lookup other :=
  AList.lookup_insert_ne hne

theorem addRange_lookup (hnone : results.components.lookup component = none) :
    (results.addRange component time range).components.lookup component =
      (range.components.lookup component).map fun chunks => ⟨time, chunks⟩ := by
  unfold addRange
  cases range.components.lookup component with
  | none => exact hnone
  | some chunks => exact AList.lookup_insert _

theorem addRange_lookup_ne (hne : other ≠ component) :
    (results.addRange component time range).components.lookup other = results.components.lookup other := by
  unfold addRange
  cases range.components.lookup component with
  | none => rfl
  | some chunks => exact AList.lookup_insert_ne hne

theorem addRange_hits (hnone : results.components.lookup component = none) :
    ((results.addRange component time range).hits component).Perm
      (((range.components.lookup component).getD []).flatMap Chunk.rows) := by
  unfold hits
  rw [addRange_lookup hnone]
  cases range.components.lookup component with
  | none => exact .refl _
  | some chunks => exact LatestAllComponentResults.hits_perm _

theorem hits_sorted (results : LatestAllResults) (component : ComponentIdentifier) :
    (results.hits component).Pairwise fun a b => a.rowId ≤ b.rowId := by
  unfold hits
  cases results.components.lookup component with
  | none => exact .nil
  | some found => exact found.hits_sorted

theorem returnsVisible_iff {isRecursive : Cell → Bool} {st : ChunkStore} {query : LatestAtQuery} {e : EntityPath}
    {unit : UnitChunkShared} {rowId : RowId} (hindex : unit.index query.timeline = some (toLex (time, rowId))) :
    st.ReturnsVisible isRecursive query e component (some unit) results ↔
      ((results.hits component).map (Row.seen query.timeline component)).Perm
        ((st.visibleHits isRecursive query e component time).map (Row.seen query.timeline component)) := by
  constructor
  · intro ⟨time', rowId', hindex', _, hperm⟩
    have htime : time' = time := congrArg (fun index => (ofLex index).1) (mem_unique hindex' hindex)
    rwa [htime] at hperm
  · exact fun hperm => ⟨time, rowId, hindex, results.hits_sorted component, hperm⟩

end LatestAllResults

namespace FullQueryCache

open ChunkStore

variable {st : ChunkStore} {cache : FullQueryCache} {query : LatestAtQuery} {mode : ChunkTrackingMode}
  {e : EntityPath} {component : ComponentIdentifier} {isRecursive : Cell → Bool} {env : Env}
  {unit : UnitChunkShared}

theorem range_singleton {k : Nat} {query : RangeQuery} {answer : FullQueryCache × RangeResults × Nat}
    (hhas : st.entityHasComponentOnTimeline (some query.timeline) e component = true)
    (h : cache.range env k mode st query e [component] = some answer) :
    rangeComponent env mode st query e (cache, ⟨[], ∅⟩, k) component = some answer := by
  unfold FullQueryCache.range at h
  rw [filter_cons_of_pos hhas, filter_nil, foldlM_cons] at h
  obtain ⟨mid, hmid, hpure⟩ := bind_eq_some_iff.mp h
  rw [hmid]
  exact hpure

theorem latestAllComponent_spec (hv : st.WellFiled) {acc out : FullQueryCache × LatestAllResults × Nat}
    (hcurrent : acc.1.RangeCurrent st) (hselectable : st.Selectable e component unit)
    (hhas : st.entityHasComponentOnTimeline query.timeline e component = true)
    (hindex : ∃ index, unit.index query.timeline = some index)
    (hout : latestAllComponent env mode st query e acc (component, unit) = some out) :
    out.1.RangeCurrent st ∧
      (∀ other, other ≠ component → out.2.1.components.lookup other = acc.2.1.components.lookup other) ∧
      (acc.2.1.components.lookup component = none →
        st.IsLatestAll isRecursive query e component (some unit) out.2.1) := by
  obtain ⟨queryTimeline, at_⟩ := query
  obtain ⟨index, hindex⟩ := hindex
  unfold latestAllComponent at hout
  rw [hindex] at hout
  dsimp only at hout
  by_cases hstatic : (ofLex index).1 = TimeInt.STATIC
  · rw [if_pos hstatic] at hout
    cases hout
    refine ⟨hcurrent, fun other hne => LatestAllResults.add_lookup_ne hne, fun _ => ?_⟩
    refine ⟨(ofLex index).1, (ofLex index).2, hindex, fun found hfound => ?_, fun _ => ?_, fun hne => ?_⟩
    · rw [LatestAllResults.add_lookup] at hfound
      rw [← some.inj hfound]
      rfl
    · unfold LatestAllResults.hits
      rw [LatestAllResults.add_lookup]
      exact LatestAllComponentResults.fromUnit_hits env _ _ hselectable.wf hindex
    · exact absurd hstatic hne
  · rw [if_neg hstatic] at hout
    obtain ⟨htemporal, timeline, rfl, htime⟩ := (unitIndex_time hindex).resolve_left fun h => hstatic h.2
    obtain ⟨answer, hanswer, rfl⟩ := map_eq_some_iff.mp hout
    obtain ⟨-, hcurrent', hspec⟩ := rangeComponent_spec hv hcurrent (range_singleton hhas hanswer)
    have hnone := hselectable.temporal htemporal
    obtain ⟨results, hresults, hrows⟩ := hspec rfl hnone rfl
    refine ⟨hcurrent', fun other hne => LatestAllResults.addRange_lookup_ne hne, fun hfresh => ?_⟩
    refine ⟨(ofLex index).1, (ofLex index).2, hindex, fun found hfound => ?_, fun heq => absurd heq hstatic,
      fun _ => ⟨LatestAllResults.hits_sorted _ _, ?_⟩⟩
    · rw [LatestAllResults.addRange_lookup hfresh] at hfound
      obtain ⟨chunks, -, rfl⟩ := map_eq_some_iff.mp hfound
      rfl
    · exact (LatestAllResults.returnsVisible_iff hindex).trans (perm_visibleHits_iff hv.filed hnone rfl htime
        hresults ((LatestAllResults.addRange_hits hfresh).trans hrows))

theorem foldlM_latestAllComponent (hv : st.WellFiled) :
    ∀ (latest : List (ComponentIdentifier × UnitChunkShared)) (acc out : FullQueryCache × LatestAllResults × Nat),
      (latest.map Prod.fst).Nodup → acc.1.RangeCurrent st →
      (∀ p ∈ latest, st.Selectable e p.1 p.2 ∧ st.entityHasComponentOnTimeline query.timeline e p.1 = true ∧
        ∃ index, p.2.index query.timeline = some index) →
      latest.foldlM (latestAllComponent env mode st query e) acc = some out →
      (∀ component, component ∉ latest.map Prod.fst →
        out.2.1.components.lookup component = acc.2.1.components.lookup component) ∧
      ∀ component unit, (component, unit) ∈ latest → acc.2.1.components.lookup component = none →
        st.IsLatestAll isRecursive query e component (some unit) out.2.1
  | [], acc, out, _, _, _, hout => by
    cases hout
    exact ⟨fun _ _ => rfl, fun component unit hmem => absurd hmem not_mem_nil⟩
  | (component, unit) :: latest, acc, out, hnodup, hcurrent, hsound, hout => by
    rw [foldlM_cons] at hout
    obtain ⟨mid, hmid, hrest⟩ := bind_eq_some_iff.mp hout
    rw [map_cons, nodup_cons] at hnodup
    obtain ⟨hselectable, hhas, hindex⟩ := hsound _ mem_cons_self
    obtain ⟨hcurrent', hkept, hgets⟩ := @latestAllComponent_spec st query mode e component isRecursive env unit hv
      acc mid hcurrent hselectable hhas hindex hmid
    obtain ⟨hkept', hgets'⟩ := foldlM_latestAllComponent hv latest mid out hnodup.2 hcurrent'
      (fun p hp => hsound p (mem_cons_of_mem _ hp)) hrest
    refine ⟨fun other hother => ?_, fun other unit' hmem hnone => ?_⟩
    · rw [map_cons, mem_cons, not_or] at hother
      rw [hkept' other hother.2, hkept other hother.1]
    · rcases mem_cons.mp hmem with heq | hmem
      · obtain ⟨rfl, rfl⟩ := Prod.mk.inj heq
        exact (hgets hnone).congr (hkept' other hnodup.1)
      · have hne : other ≠ component := fun heq => hnodup.1 (List.mem_map.mpr ⟨_, hmem, heq⟩)
        exact hgets' other unit' hmem ((hkept other hne).trans hnone)

theorem latestAll_isSome {k : Nat} {components : List ComponentIdentifier} (hmode : mode ≠ .panicOnMissing) :
    (cache.latestAll env k isRecursive mode st query e components).isSome = true := by
  have hids : ∀ ids, (QueryResults.fromChunkIds st mode ids).isSome = true := by
    intro ids
    unfold QueryResults.fromChunkIds
    rw [if_neg fun h => hmode h.1]
    rfl
  have hrange : ∀ (query : RangeQuery) (acc : FullQueryCache × RangeResults × Nat) component,
      (rangeComponent env mode st query e acc component).isSome = true := by
    intro query acc component
    unfold rangeComponent RangeCache.range rangeRelevantChunks
    rw [isSome_map, isSome_map]
    split
    · exact hids _
    · rw [isSome_map]
      exact hids _
  have hcomponent : ∀ acc latest, (latestAllComponent env mode st query e acc latest).isSome = true := by
    intro acc latest
    unfold latestAllComponent
    split
    · rfl
    · dsimp only
      split
      · rfl
      · split
        · rfl
        · rw [isSome_map]
          exact foldlM_isSome (hrange _) _ _
  unfold latestAll
  obtain ⟨latest, hlatest⟩ := isSome_iff_exists.mp
    (@QueryCache.latestAt_isSome st cache.toQueryCache query mode e isRecursive hmode components)
  rw [hlatest, bind_some, isSome_map]
  exact foldlM_isSome hcomponent _ _

end FullQueryCache

/-! ## Every run -/

namespace ChunkStore

variable {st : ChunkStore} {cache : FullQueryCache} {query : LatestAtQuery} {mode : ChunkTrackingMode}
  {e : EntityPath} {isRecursive : Cell → Bool} {env : Env} {k : Nat} {components : List ComponentIdentifier}

/-- After every run whose manifests agree with the chunks they name, a latest-all query answers unless it
panics over a missing chunk, and says of each component what follows from the row that latest-at returns. -/
theorem recordingRun_latestAll (h : RecordingRun Call.AgreesWithChunks st cache) :
    (mode ≠ .panicOnMissing → (cache.latestAll env k isRecursive mode st query e components).isSome = true) ∧
    ∀ answer, cache.latestAll env k isRecursive mode st query e components = some answer →
      ∃ latest, cache.toQueryCache.latestAt isRecursive mode st query e components = some latest ∧
        ∀ component, st.IsLatestAll isRecursive query e component (latest.2.components.lookup component) answer.2.1 := by
  obtain ⟨hv, hsettled, hcurrent⟩ := h.spec
  refine ⟨FullQueryCache.latestAll_isSome, fun answer hanswer => ?_⟩
  obtain ⟨latest, hlatest, hanswer⟩ := bind_eq_some_iff.mp hanswer
  obtain ⟨out, hout, rfl⟩ := map_eq_some_iff.mp hanswer
  obtain ⟨-, hsound⟩ := hsettled.latestAt hv hlatest
  obtain ⟨hkept, hgets⟩ := @FullQueryCache.foldlM_latestAllComponent st query mode e isRecursive env hv
    (Assoc.toList latest.2.components) _ out (toList_fst_nodup _) hcurrent (fun p hp => by
      obtain ⟨hmem, hselectable, hindex⟩ := hsound p.1 p.2 (mem_toList.mp hp)
      exact ⟨hselectable, (mem_filter.mp hmem).2, hindex⟩) hout
  refine ⟨latest, hlatest, fun component => ?_⟩
  cases hlookup : latest.2.components.lookup component with
  | none =>
    have habsent : component ∉ (Assoc.toList latest.2.components).map Prod.fst := by
      intro hmem
      obtain ⟨p, hp, hfst⟩ := List.mem_map.mp hmem
      have hsome := mem_toList.mp hp
      rw [hfst, hlookup] at hsome
      cases hsome
    exact hkept component habsent
  | some unit => exact (hgets component unit (mem_toList.mpr hlookup) rfl).congr rfl

def staticPair : ValidChunk where
  toChunk := staticChunk 7 [1, 2]
  sane := rfl

def clearBetween : ValidChunk where
  toChunk := .ofColumns 8 ⟨["robot"]⟩ 0 [1, 2, 3] [(⟨"frame"⟩, [5, 5, 5].map I64.sat)]
    [(⟨"position"⟩, [some [], none, some []]), (clearIsRecursive, [none, some [[1]], none])]
  sane := rfl

def storeOf (c : ValidChunk) : ChunkStore := (Op.insertChunk (.countingFrom 100) c).run (.new ⟨0, 0, 0⟩)

def cacheOf (c : ValidChunk) : FullQueryCache :=
  FullQueryCache.new.onEvents ((Call.insertChunk (.countingFrom 100) c).run (.new ⟨0, 0, 0⟩)).2

theorem recordingRun_storeOf {c : ValidChunk} (hfresh : Fresh (.countingFrom 100) (.new ⟨0, 0, 0⟩) c.toChunk) :
    RecordingRun Call.AgreesWithChunks (storeOf c) (cacheOf c) :=
  @RecordingRun.call _ _ _ (.insertChunk (.countingFrom 100) c) (.new ⟨0, 0, 0⟩) hfresh
    (Grown.coherent (.new _) Bool.false_ne_true _).agrees

/-- A query about the rows around the tombstone. -/
theorem recordingRun_latestAll_clearBetween :
    ∃ answer latest,
      (cacheOf clearBetween).latestAll (.countingFrom 200) 0 isTrue .report (storeOf clearBetween)
        atTen ⟨["robot"]⟩ [⟨"position"⟩] = some answer ∧
      (cacheOf clearBetween).toQueryCache.latestAt isTrue .report (storeOf clearBetween)
        atTen ⟨["robot"]⟩ [⟨"position"⟩] = some latest ∧
      (storeOf clearBetween).IsLatestAll isTrue atTen ⟨["robot"]⟩ ⟨"position"⟩
        (latest.2.components.lookup ⟨"position"⟩) answer.2.1 := by
  obtain ⟨hsome, hanswers⟩ := @recordingRun_latestAll (storeOf clearBetween) (cacheOf clearBetween)
    atTen .report ⟨["robot"]⟩ isTrue (.countingFrom 200) 0 [⟨"position"⟩]
    (recordingRun_storeOf fresh_countingFrom)
  obtain ⟨answer, hanswer⟩ := isSome_iff_exists.mp (hsome nofun)
  obtain ⟨latest, hlatest, hall⟩ := hanswers answer hanswer
  exact ⟨answer, latest, hanswer, hlatest, hall _⟩

@[elab_as_elim]
theorem of_eq_some {α : Type} {P : α → Prop} {o : Option α} (a : α) (ha : o = some a) (h : ∀ a ∈ o, P a) : P a :=
  h a ha

variable {answer : FullQueryCache × LatestAllResults × Nat} {latest : QueryCache × LatestAtResults}

theorem staticPair_not_returnsVisible
    (hanswer : (cacheOf staticPair).latestAll (.countingFrom 200) 0 isTrue .report (storeOf staticPair)
      atTen ⟨["robot"]⟩ [⟨"color"⟩] = some answer)
    (hlatest : (cacheOf staticPair).toQueryCache.latestAt isTrue .report (storeOf staticPair)
      atTen ⟨["robot"]⟩ [⟨"color"⟩] = some latest) :
    ¬ (storeOf staticPair).ReturnsVisible isTrue atTen ⟨["robot"]⟩ ⟨"color"⟩
      (latest.2.components.lookup ⟨"color"⟩) answer.2.1 := by
  classical
  have hunits : ((latest.2.components.lookup ⟨"color"⟩).bind fun unit => unit.index atTen.timeline) =
      some (toLex (TimeInt.STATIC, 2)) := of_eq_some latest hlatest (by decide)
  have hfound : (answer.2.1.hits ⟨"color"⟩).length = 1 := of_eq_some answer hanswer (by decide)
  obtain ⟨unit, hunit, hindex⟩ := bind_eq_some_iff.mp hunits
  rw [hunit, LatestAllResults.returnsVisible_iff hindex]
  intro hperm
  have hlength := hperm.length_eq
  rw [length_map, length_map, hfound] at hlength
  have hno : ∀ q ∈ Assoc.toList (storeOf staticPair).physicalChunksPerChunkId,
      (q.2.components.lookup clearIsRecursive).isNone = true := by decide
  have hvisible : ∀ index, ¬ (storeOf staticPair).Hides isTrue atTen ⟨["robot"]⟩ ⟨"color"⟩ index := by
    intro index ⟨_, p, _, clear, cell, ⟨c, i, hc, _, _, hcell, _⟩, _⟩
    obtain ⟨column, hcolumn, -⟩ := bind_eq_some_iff.mp hcell
    have hnone := hno _ (mem_toList.mpr hc)
    rw [hcolumn] at hnone
    cases hnone
  have hall : ((storeOf staticPair).hits atTen.timeline ⟨["robot"]⟩ ⟨"color"⟩ TimeInt.STATIC).length = 2 := by
    decide
  unfold visibleHits at hlength
  rw [filter_eq_self.mpr fun row _ => decide_eq_true (hvisible _), hall] at hlength
  cases hlength

theorem clearBetween_not_returnsVisible
    (hanswer : (cacheOf clearBetween).latestAll (.countingFrom 200) 0 isTrue .report (storeOf clearBetween)
      atTen ⟨["robot"]⟩ [⟨"position"⟩] = some answer)
    (hlatest : (cacheOf clearBetween).toQueryCache.latestAt isTrue .report (storeOf clearBetween)
      atTen ⟨["robot"]⟩ [⟨"position"⟩] = some latest) :
    ¬ (storeOf clearBetween).ReturnsVisible isTrue atTen ⟨["robot"]⟩ ⟨"position"⟩
      (latest.2.components.lookup ⟨"position"⟩) answer.2.1 := by
  classical
  have hunits : ((latest.2.components.lookup ⟨"position"⟩).bind fun unit => unit.index atTen.timeline) =
      some (toLex (⟨.sat 5⟩, 3)) := of_eq_some latest hlatest (by decide)
  have hfound : (answer.2.1.hits ⟨"position"⟩).map (·.rowId) = [1, 3] := of_eq_some answer hanswer (by decide)
  obtain ⟨unit, hunit, hindex⟩ := bind_eq_some_iff.mp hunits
  rw [hunit, LatestAllResults.returnsVisible_iff hindex]
  intro hperm
  obtain ⟨row, hrow, hid⟩ : ∃ row ∈ answer.2.1.hits ⟨"position"⟩, row.rowId = 1 := by
    rw [← List.mem_map, hfound]
    exact mem_cons_self
  obtain ⟨row', hrow', heq⟩ := List.mem_map.mp (hperm.subset (List.mem_map_of_mem hrow))
  have hid' : row'.rowId = 1 := (congrArg (fun row : Row => row.rowId) heq).trans hid
  have hvisible := of_decide_eq_true (mem_filter.mp hrow').2
  rw [hid'] at hvisible
  refine hvisible ⟨by decide, ⟨["robot"]⟩, by decide, toLex (⟨.sat 5⟩, 2), [[1]], ?_, .inl rfl, ?_⟩
  · exact ⟨clearBetween.toChunk, 1, rfl, rfl, ⟨by decide, rfl⟩, rfl, by decide⟩
  · unfold AtOrAbove
    decide

def robotRow : ValidChunk := ⟨positionsChunk 8 [1] [5], rfl⟩

def announcing (manifest : DlrManifest) : ChunkStore := ((Call.insertDlrManifest manifest).run (storeOf robotRow)).1

def announcingCache (manifest : DlrManifest) : FullQueryCache :=
  (cacheOf robotRow).onEvents ((Call.insertDlrManifest manifest).run (storeOf robotRow)).2

theorem RecordingRun.mono {allowed allowed' : ChunkStore → Call → Prop} (h : RecordingRun allowed st cache)
    (himp : ∀ st call, allowed st call → allowed' st call) : RecordingRun allowed' st cache := by
  induction h with
  | new config => exact .new config
  | call _ hcall hallowed ih => exact .call ih hcall (himp _ _ hallowed)
  | latestAt _ hanswer ih => exact .latestAt ih hanswer
  | range _ hanswer ih => exact .range ih hanswer
  | gc _ splitPoint ih => exact .gc ih splitPoint
  | clear _ ih => exact .clear ih

theorem recordingRun_announcing (manifest : DlrManifest) :
    RecordingRun (fun _ _ => True) (announcing manifest) (announcingCache manifest) :=
  .call ((recordingRun_storeOf fresh_countingFrom).mono fun _ _ _ => trivial) trivial
    trivial

/-- A manifest that takes the chunk of the robot for the static data of another entity. -/
def misplacedManifest : DlrManifest where
  staticMap := Assoc.ofList [((⟨["other"]⟩, ⟨"position"⟩), 8)]
  temporalMap := ∅

theorem misplaced_not_returnsVisible
    (hanswer : (announcingCache misplacedManifest).latestAll (.countingFrom 200) 0 isTrue .report
      (announcing misplacedManifest) atTen ⟨["other"]⟩ [⟨"position"⟩] = some answer)
    (hlatest : (announcingCache misplacedManifest).toQueryCache.latestAt isTrue .report
      (announcing misplacedManifest) atTen ⟨["other"]⟩ [⟨"position"⟩] = some latest) :
    ¬ (announcing misplacedManifest).ReturnsVisible isTrue atTen ⟨["other"]⟩ ⟨"position"⟩
      (latest.2.components.lookup ⟨"position"⟩) answer.2.1 := by
  have hunits : ((latest.2.components.lookup ⟨"position"⟩).bind fun unit => unit.index atTen.timeline) =
      some (toLex (⟨.sat 5⟩, 1)) := of_eq_some latest hlatest (by decide)
  have hfound : (answer.2.1.hits ⟨"position"⟩).length = 1 := of_eq_some answer hanswer (by decide)
  obtain ⟨unit, hunit, hindex⟩ := bind_eq_some_iff.mp hunits
  rw [hunit, LatestAllResults.returnsVisible_iff hindex]
  intro hperm
  have hlength := hperm.length_eq
  have hnone : (announcing misplacedManifest).hits atTen.timeline ⟨["other"]⟩ ⟨"position"⟩ ⟨.sat 5⟩ = [] :=
    List.eq_nil_of_length_eq_zero (by decide)
  unfold visibleHits at hlength
  rw [hnone, length_map, hfound] at hlength
  cases hlength

/-- So a latest-all query does not always return all visible hits, and it returns others if a manifest
is wrong about its chunks. -/
theorem latestAll_not_returnsVisible :
    (∃ answer latest, RecordingRun Call.AgreesWithChunks (storeOf staticPair) (cacheOf staticPair) ∧
      (cacheOf staticPair).latestAll (.countingFrom 200) 0 isTrue .report (storeOf staticPair)
        atTen ⟨["robot"]⟩ [⟨"color"⟩] = some answer ∧
      (cacheOf staticPair).toQueryCache.latestAt isTrue .report (storeOf staticPair)
        atTen ⟨["robot"]⟩ [⟨"color"⟩] = some latest ∧
      ¬ (storeOf staticPair).ReturnsVisible isTrue atTen ⟨["robot"]⟩ ⟨"color"⟩
        (latest.2.components.lookup ⟨"color"⟩) answer.2.1) ∧
    (∃ answer latest, RecordingRun Call.AgreesWithChunks (storeOf clearBetween) (cacheOf clearBetween) ∧
      (cacheOf clearBetween).latestAll (.countingFrom 200) 0 isTrue .report (storeOf clearBetween)
        atTen ⟨["robot"]⟩ [⟨"position"⟩] = some answer ∧
      (cacheOf clearBetween).toQueryCache.latestAt isTrue .report (storeOf clearBetween)
        atTen ⟨["robot"]⟩ [⟨"position"⟩] = some latest ∧
      ¬ (storeOf clearBetween).ReturnsVisible isTrue atTen ⟨["robot"]⟩ ⟨"position"⟩
        (latest.2.components.lookup ⟨"position"⟩) answer.2.1) ∧
    ∃ answer latest, RecordingRun (fun _ _ => True) (announcing misplacedManifest)
        (announcingCache misplacedManifest) ∧
      (announcingCache misplacedManifest).latestAll (.countingFrom 200) 0 isTrue .report
        (announcing misplacedManifest) atTen ⟨["other"]⟩ [⟨"position"⟩] = some answer ∧
      (announcingCache misplacedManifest).toQueryCache.latestAt isTrue .report (announcing misplacedManifest)
        atTen ⟨["other"]⟩ [⟨"position"⟩] = some latest ∧
      ¬ (announcing misplacedManifest).ReturnsVisible isTrue atTen ⟨["other"]⟩ ⟨"position"⟩
        (latest.2.components.lookup ⟨"position"⟩) answer.2.1 := by
  have hmode : ChunkTrackingMode.report ≠ .panicOnMissing := nofun
  have hanswers : ∀ (st : ChunkStore) (cache : FullQueryCache) e component, ∃ answer latest,
      cache.latestAll (.countingFrom 200) 0 isTrue .report st atTen e [component] =
        some answer ∧
      cache.toQueryCache.latestAt isTrue .report st atTen e [component] = some latest := by
    intro st cache e component
    obtain ⟨answer, hanswer⟩ := isSome_iff_exists.mp (FullQueryCache.latestAll_isSome hmode)
    obtain ⟨latest, hlatest⟩ := isSome_iff_exists.mp (latestAt_isSome hmode)
    exact ⟨answer, latest, hanswer, hlatest⟩
  obtain ⟨answer, latest, hanswer, hlatest⟩ := hanswers (storeOf staticPair) (cacheOf staticPair) ⟨["robot"]⟩ ⟨"color"⟩
  obtain ⟨answer', latest', hanswer', hlatest'⟩ := hanswers (storeOf clearBetween) (cacheOf clearBetween) ⟨["robot"]⟩
    ⟨"position"⟩
  obtain ⟨answer'', latest'', hanswer'', hlatest''⟩ := hanswers (announcing misplacedManifest)
    (announcingCache misplacedManifest) ⟨["other"]⟩ ⟨"position"⟩
  exact ⟨⟨answer, latest, recordingRun_storeOf fresh_countingFrom, hanswer, hlatest,
      staticPair_not_returnsVisible hanswer hlatest⟩,
    ⟨answer', latest', recordingRun_storeOf fresh_countingFrom, hanswer', hlatest',
      clearBetween_not_returnsVisible hanswer' hlatest'⟩,
    answer'', latest'', recordingRun_announcing misplacedManifest, hanswer'', hlatest'',
      misplaced_not_returnsVisible hanswer'' hlatest''⟩

end ChunkStore

end Dalaran
