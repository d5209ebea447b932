import Dalaran.Query.Coherence
import Dalaran.Store.Grown

/-
  What relevancy queries find.

  In stores that insertions and collections lead to, the start map of a key is
  that of the physical chunks (`Grown.starts_iff`), so what a query leaves out
  comes from the way it walks back. The walk is bounded by the longest interval
  of the key, cut to an `i64`:
    - a latest-at query starts the walk at the last start, and misses a chunk
      that starts more than an `i64` earlier (`latestAt_finds_iff`);
    - a range query starts it at its own first time (`mem_rangeRelevantChunks`).
  An interval that fits makes either walk long enough.

  With extended bounds a range query walks one tick further, but keeps the chunks
  that meet the range itself (`extendedRange_finds_iff`).

  Correspondence (Rust ↔ Lean):
    the queries of `query.rs` are in `Store/Query`
-/

namespace Dalaran

open List Option TimeInt AbsoluteTimeRange

/-- The first time a range query is about, before it is clamped. -/
def RangeQuery.scanMin (query : RangeQuery) : Int :=
  query.range.min.asI64.val - if query.options.includeExtendedBounds then 1 else 0

namespace ChunkIdSetPerTime

variable {s : ChunkIdSetPerTime} {query : RangeQuery} {id : ChunkId} {t u : TimeInt}

/-! ## The walk of a range query -/

def walkFrom (s : ChunkIdSetPerTime) (query : RangeQuery) : TimeInt :=
  TimeInt.newTemporal
    ((if query.options.includeExtendedBounds then
        TimeInt.newTemporal (query.range.min.asI64.saturatingSub I64.ONE)
      else query.range.min).asI64.saturatingSub (I64.ofLength s.maxIntervalLength))

def scanMax (query : RangeQuery) : TimeInt :=
  if query.options.includeExtendedBounds then
    TimeInt.newTemporal (query.range.max.asI64.saturatingAdd I64.ONE)
  else query.range.max

theorem le_scanMax (h : u ≤ query.range.max) : u ≤ scanMax query := by
  unfold scanMax
  split
  · rw [le_def] at h ⊢
    rw [newTemporal_val]
    have hhi := u.asI64.hi
    simp only [I64.saturatingAdd, I64.sat_val, I64.ONE_val]
    omega
  · exact h

theorem le_walkFrom_iff (hu : TimeInt.MIN ≤ u) : u ≤ s.walkFrom query ↔
    u = TimeInt.MIN ∨ u.asI64.val + (I64.ofLength s.maxIntervalLength).val ≤ query.scanMin := by
  have hlength := I64.ofLength_val s.maxIntervalLength
  have hfirst : u = MIN ↔ u.asI64.val = -9223372036854775807 := by
    constructor
    · rintro rfl
      rfl
    · intro h
      exact asI64_injective (I64.val_injective h)
  have hmin := query.range.min.asI64.hi
  have hmin' := query.range.min.asI64.lo
  rw [le_def, MIN_val] at hu
  rw [hfirst, le_def]
  unfold walkFrom RangeQuery.scanMin
  rw [newTemporal_val, I64.saturatingSub_val]
  split
  · rw [newTemporal_val, I64.saturatingSub_val, I64.ONE_val]
    omega
  · omega

theorem lastStartAt_eq_none_iff : s.lastStartAt t = none ↔ ∀ u ∈ s.startTimes, ¬ u ≤ t := by
  unfold lastStartAt
  simp

theorem mem_range (hfirst : TimeInt.MIN ≤ u) (hu : toLex (u, id) ∈ s.perStartTime)
    (hown : ∀ u', toLex (u', id) ∈ s.perStartTime → u' = u) (hmax : u ≤ query.range.max) :
    id ∈ s.range query ↔ ∀ u' ∈ s.startTimes,
      u'.asI64.val + (I64.ofLength s.maxIntervalLength).val ≤ query.scanMin → u' ≤ u := by
  have hstart : u ∈ s.startTimes := mem_startTimes.mpr ⟨id, hu⟩
  have hrange : s.range query = (s.startsIn ((s.lastStartAt (s.walkFrom query)).getD MIN)
      (max ((s.lastStartAt (s.walkFrom query)).getD MIN)
        ((s.lastStartAt (scanMax query)).getD ((s.lastStartAt (s.walkFrom query)).getD MIN)))).map
          fun p => (ofLex p).2 := rfl
  have hend : ∀ start : TimeInt, u ≤ max start ((s.lastStartAt (scanMax query)).getD start) := by
    intro start
    cases hlast : s.lastStartAt (scanMax query) with
    | none => exact absurd (le_scanMax hmax) (lastStartAt_eq_none_iff.mp hlast u hstart)
    | some last => exact le_max_of_le_right ((lastStartAt_eq_some_iff.mp hlast).2 u hstart (le_scanMax hmax))
  have hmem : id ∈ s.range query ↔ (s.lastStartAt (s.walkFrom query)).getD MIN ≤ u := by
    rw [hrange, List.mem_map]
    constructor
    · intro ⟨p, hp, hid⟩
      obtain ⟨hp, hbounds⟩ := mem_filter.mp hp
      have hlo := (Bool.and_eq_true_iff.mp hbounds).1
      have hpid : toLex ((ofLex p).1, id) ∈ s.perStartTime := hid ▸ hp
      rw [← hown _ hpid]
      exact of_decide_eq_true hlo
    · intro hlo
      refine ⟨toLex (u, id), mem_filter.mpr ⟨hu, ?_⟩, rfl⟩
      exact Bool.and_eq_true_iff.mpr ⟨decide_eq_true hlo, decide_eq_true (hend _)⟩
  rw [hmem]
  have hwalk : ∀ u' ∈ s.startTimes, u' ≤ u ∨
      (u' ≤ s.walkFrom query ↔ u'.asI64.val + (I64.ofLength s.maxIntervalLength).val ≤ query.scanMin) := by
    intro u' hu'
    by_cases hmin : u' ≤ MIN
    · exact .inl (hmin.trans hfirst)
    · exact .inr ((le_walkFrom_iff (le_of_not_ge hmin)).trans (or_iff_right fun heq => hmin heq.le))
  cases hlast : s.lastStartAt (s.walkFrom query) with
  | none =>
    have hnone := lastStartAt_eq_none_iff.mp hlast
    refine iff_of_true hfirst fun u' hu' hle => ?_
    rcases hwalk u' hu' with hle' | hiff
    · exact hle'
    · exact absurd (hiff.mpr hle) (hnone u' hu')
  | some last =>
    obtain ⟨⟨hstart', hle'⟩, hlatest⟩ := lastStartAt_eq_some_iff.mp hlast
    constructor
    · intro hlast' u' hu' hle
      rcases hwalk u' hu' with hu | hiff
      · exact hu
      · exact (hlatest u' hu' (hiff.mpr hle)).trans hlast'
    · intro hall
      rcases hwalk last hstart' with hle | hiff
      · exact hle
      · exact hall last hstart' (hiff.mp hle')

end ChunkIdSetPerTime

namespace ChunkStore

variable {st : ChunkStore} {e : EntityPath} {timeline : TimelineName} {component : ComponentIdentifier}
  {c : Chunk} {index : TimeInt ×ₗ RowId} {mode : ChunkTrackingMode}

/-! ## Rows -/

structure HoldsRow (st : ChunkStore) (e : EntityPath) (timeline : TimelineName)
    (component : ComponentIdentifier) (c : Chunk) (index : TimeInt ×ₗ RowId) : Prop where
  physical : st.physical c.id = some c
  entityPath : c.entityPath = e
  row : ∃ i t r, c.HasCellAt timeline component i t ∧ c.rowIds[i]? = some r ∧ index = toLex (⟨t⟩, r)

/-- The indices of the physical rows with the component whose times have a property. -/
def rowsWhere (st : ChunkStore) (e : EntityPath) (timeline : TimelineName) (component : ComponentIdentifier)
    (p : TimeInt → Prop) : Set (TimeInt ×ₗ RowId) :=
  {index | p (ofLex index).1 ∧ ∃ c, st.HoldsRow e timeline component c index}

theorem Grown.starts_iff (h : st.Grown) {id : ChunkId} {u : TimeInt} :
    st.ListedAt id (.component e timeline component .start u) ↔ ∃ d range, st.physical id = some d ∧
      d.entityPath = e ∧ d.componentRange timeline component = some range ∧ u = range.min := by
  rw [h.listedAt_iff]
  constructor
  · intro ⟨d, hd, he, range, hrange, hu⟩
    exact ⟨d, range, hd, he.symm, hrange, hu⟩
  · intro ⟨d, range, hd, he, hrange, hu⟩
    exact ⟨d, hd, he.symm, range, hrange, hu⟩

theorem Grown.filed (h : st.Grown) : st.catalog.Filed where
  sound := h.settled.order.sound
  lists := fun _ d _ hd hown => h.listedAt_iff.mpr ⟨d, hd, hown⟩
  own := by
    intro id c e timeline component t hc hlisted
    have hlisted' : st.ListedAt id (.component e timeline component .start t) := hlisted
    obtain ⟨d, hd, hown⟩ := h.listedAt_iff.mp hlisted'
    obtain rfl := mem_unique hc hd
    exact hown
  covered := h.settled.order.covered

theorem HoldsRow.range (hv : st.catalog.Consistent fun _ => True)
    (h : st.HoldsRow e timeline component c index) :
    ∃ range, c.componentRange timeline component = some range ∧ range.min ≤ (ofLex index).1 ∧
      (ofLex index).1 ≤ range.max := by
  obtain ⟨i, t, r, hcell, -, rfl⟩ := h.row
  have hwf := (hv.sound.chunk _ _ h.physical).wf
  obtain ⟨lo, hi, hrange, -, -, -⟩ := Chunk.componentRange_tight hwf hcell
  obtain ⟨hmin, hmax, -⟩ := Chunk.componentRange_min_le hwf hrange hcell
  exact ⟨_, hrange, hmin, hmax⟩

theorem max_le_longest (hv : st.catalog.Consistent fun _ => True) (hc : st.physical c.id = some c)
    (he : c.entityPath = e) {range : AbsoluteTimeRange} (hrange : c.componentRange timeline component = some range) :
    range.max.asI64.val ≤ range.min.asI64.val + st.catalog.longest (e, timeline, component) := by
  have hcovered := hv.covered c.id c timeline component range hc hrange
  rw [he] at hcovered
  unfold AbsoluteTimeRange.absLength I64.absDiff at hcovered
  omega

/-! ## Latest-at queries -/

/-- No chunk of the key starts at or before a time and more than an `i64` after a chunk. -/
def WithinReach (st : ChunkStore) (e : EntityPath) (timeline : TimelineName) (component : ComponentIdentifier)
    (at_ : TimeInt) (c : Chunk) : Prop :=
  ∀ range d range', c.componentRange timeline component = some range → st.physical d.id = some d →
    d.entityPath = e → d.componentRange timeline component = some range' → range'.min ≤ at_ →
      range'.min.asI64.val ≤ range.min.asI64.val + 9223372036854775807

theorem start_row_or_longest (hv : st.catalog.Consistent fun _ => True) (hc : st.physical c.id = some c)
    (he : c.entityPath = e) {range : AbsoluteTimeRange} (hrange : c.componentRange timeline component = some range) :
    (∃ r, st.HoldsRow e timeline component c (toLex (range.min, r))) ∨
      9223372036854775807 < st.catalog.longest (e, timeline, component) := by
  have hsound := hv.sound.chunk _ _ hc
  obtain ⟨tc, htc, hbind⟩ := bind_eq_some_iff.mp hrange
  obtain ⟨column, hcol, -⟩ := bind_eq_some_iff.mp hbind
  by_cases hcell : ∃ i t, c.HasCellAt timeline component i t
  · left
    obtain ⟨i, t, hit⟩ := hcell
    obtain ⟨-, -, j, lo, hj, hlo⟩ := Chunk.componentRange_min_le hsound.wf hrange hit
    have htemporal : c.isStatic = false :=
      Chunk.isStatic_eq_false_iff.mpr ⟨timeline, isSome_of_eq_some htc⟩
    obtain ⟨r, hr⟩ := hj.cellIndex htemporal hsound.wf
    obtain ⟨t', r', hcell', hrow', hindex⟩ := (Chunk.cellIndex_iff htemporal hsound.wf).mp hr
    have hrr : r = r' := congrArg Prod.snd (toLex.injective hindex)
    exact ⟨r, hc, he, j, lo, r, hj, hrr ▸ hrow', by rw [hlo]⟩
  · right
    have hcovered := hv.covered c.id c timeline component range hc hrange
    rw [Chunk.componentRange_of_all_null hsound.wf hsound.nonempty htc hcol hcell] at hrange
    rw [he, ← some.inj hrange] at hcovered
    have hempty : AbsoluteTimeRange.EMPTY.absLength = 18446744073709551614 := rfl
    omega

/-- A latest-at query finds the chunk of the latest row if and only if no other chunk starts out of its
reach. -/
theorem latestAt_finds_iff (h : st.Grown) (hstatic : st.staticChunkIdsPerEntity.lookup (e, component) = none)
    {at_ : TimeInt} (hc : st.HoldsRow e timeline component c index)
    (hlatest : IsGreatest (st.rowsWhere e timeline component (· ≤ at_)) index) :
    ∃ results, st.latestAtRelevantChunks mode ⟨some timeline, at_⟩ e component = some results ∧
      (c ∈ results.chunks ↔ st.WithinReach e timeline component at_ c) := by
  have hv := h.settled.order
  have hloaded : ∀ id ∈ st.latestAtChunkIds ⟨some timeline, at_⟩ e component, st.IsPhysical id := by
    intro id hid
    obtain ⟨timeline', -, u, hu, -⟩ := mem_latestAtChunkIds.mp hid
    exact h.settled.noGhosts id _ hu
  refine ⟨⟨(st.latestAtChunkIds ⟨some timeline, at_⟩ e component).filterMap st.physical, []⟩, ?_, ?_⟩
  · unfold latestAtRelevantChunks
    rw [hstatic]
    exact fromChunkIds_of_loaded hloaded
  obtain ⟨range, hrange, hmin, hmax⟩ := hc.range hv
  have hlongest := max_le_longest hv hc.physical hc.entityPath hrange
  have hmem : c ∈ (st.latestAtChunkIds ⟨some timeline, at_⟩ e component).filterMap st.physical ↔
      st.catalog.InWindow e timeline component at_ c.id := by
    rw [mem_filterMap]
    constructor
    · intro ⟨id, hid, hphysical⟩
      obtain ⟨timeline', htimeline, hwindow⟩ := mem_latestAtChunkIds.mp hid
      rw [hv.sound.id_eq id c hphysical, some.inj htimeline]
      exact hwindow
    · intro hwindow
      exact ⟨c.id, mem_latestAtChunkIds.mpr ⟨timeline, rfl, hwindow⟩, hc.physical⟩
  rw [hmem]
  have hstart : ∀ {u}, st.ListedAt c.id (.component e timeline component .start u) → u = range.min := by
    intro u hu
    obtain ⟨d, range', hd, -, hrange', rfl⟩ := h.starts_iff.mp hu
    obtain rfl := some.inj (hc.physical.symm.trans hd)
    rw [some.inj (hrange.symm.trans hrange')]
  constructor
  · intro ⟨u, hu, hut, hwindow⟩ range₀ d range' hrange₀ hd he' hrange' hat
    obtain rfl := some.inj (hrange.symm.trans hrange₀)
    have hle := hwindow d.id range'.min (h.starts_iff.mpr ⟨d, range', hd, he', hrange', rfl⟩) hat
    rw [hstart hu, I64.le_def, I64.saturatingSub_val, I64.ofLength_val] at hle
    have hhi := range'.min.asI64.hi
    omega
  · intro hreach
    refine ⟨range.min, h.starts_iff.mpr ⟨c, range, hc.physical, hc.entityPath, hrange, rfl⟩,
      hmin.trans hlatest.1.1, fun id u hu hut => ?_⟩
    obtain ⟨d, range', hd, he', hrange', rfl⟩ := h.starts_iff.mp hu
    obtain rfl := hv.sound.id_eq id d hd
    have hnear := hreach range d range' hrange hd he' hrange' hut
    rw [I64.le_def, I64.saturatingSub_val, I64.ofLength_val]
    have hlo := range.min.asI64.lo
    rcases start_row_or_longest hv hd he' hrange' with ⟨r, hrow⟩ | hlong
    · -- the latest row is no earlier than the start of the other chunk
      have hmem : toLex (range'.min, r) ∈ st.rowsWhere e timeline component (· ≤ at_) := ⟨hut, d, hrow⟩
      have hle := Prod.Lex.monotone_fst _ _ (hlatest.2 hmem)
      have hle' : range'.min ≤ range.max := hle.trans hmax
      rw [le_def] at hle'
      omega
    · omega

theorem HoldsRow.of_positions {id : ChunkId} {rowIds : List RowId} {times : List Int}
    (h : st.HoldsRow e timeline component (positionsChunk id rowIds times) index) :
    ∃ (i : Nat) (t : I64) (r : RowId), (times.map I64.sat)[i]? = some t ∧ rowIds[i]? = some r ∧
      index = toLex (⟨t⟩, r) := by
  obtain ⟨i, t, r, ⟨htime, -⟩, hrow, hindex⟩ := h.row
  obtain ⟨tc, htc, ht⟩ := bind_eq_some_iff.mp htime
  refine ⟨i, t, r, ?_, hrow, hindex⟩
  have hlookup : (positionsChunk id rowIds times).timelines.lookup timeline =
      if timeline = ⟨"frame"⟩ then some (TimeColumn.new none ⟨⟨"frame"⟩, .sequence⟩ (times.map I64.sat))
      else none := Assoc.lookup_insert_ite _ _ _ _
  rw [hlookup] at htc
  split at htc
  · rw [← some.inj htc] at ht
    exact ht
  · cases htc

theorem unplacedStore_holdsRow :
    unplacedStore.HoldsRow ⟨["robot"]⟩ ⟨"frame"⟩ ⟨"position"⟩ (positionsChunk 1 [1] [-5])
      (toLex (⟨.sat (-5)⟩, 1)) :=
  ⟨rfl, rfl, 0, .sat (-5), 1, ⟨rfl, rfl⟩, rfl, rfl⟩

theorem unplacedStore_latest (at_ : TimeInt) (hat : (⟨.sat (-5)⟩ : TimeInt) ≤ at_) :
    IsGreatest (unplacedStore.rowsWhere ⟨["robot"]⟩ ⟨"frame"⟩ ⟨"position"⟩ (· ≤ at_))
      (toLex (⟨.sat (-5)⟩, 1)) := by
  refine ⟨⟨hat, _, unplacedStore_holdsRow⟩, fun index hindex => ?_⟩
  obtain ⟨-, d, hd⟩ := hindex
  have hmem := Assoc.mem_toList.mpr hd.physical
  have hlist : Assoc.toList unplacedStore.physicalChunksPerChunkId =
      [(2, unplacedChunk 2 2), (1, positionsChunk 1 [1] [-5])] := rfl
  rcases mem_cons.mp hmem with hd' | hmem
  · obtain rfl : d = unplacedChunk 2 2 := congrArg Prod.snd hd'
    obtain ⟨i, t, r, hcell, -⟩ := hd.row
    exact absurd ⟨⟨t⟩, i, hcell⟩ (unplacedChunk_no_cells 2 2 _ _)
  · obtain rfl : d = positionsChunk 1 [1] [-5] := congrArg Prod.snd (mem_singleton.mp hmem)
    obtain ⟨i, t, r, ht, hr, rfl⟩ := hd.of_positions
    cases i with
    | zero =>
      cases ht
      cases hr
      exact le_rfl
    | succ i => cases ht

/-- At the last time there is, a query finds the chunk without a cell, not the one with the row. -/
theorem unplacedStore_latestAt_incomplete :
    unplacedStore.Grown ∧ unplacedStore.staticChunkIdsPerEntity.lookup (⟨["robot"]⟩, ⟨"position"⟩) = none ∧
      IsGreatest (unplacedStore.rowsWhere ⟨["robot"]⟩ ⟨"frame"⟩ ⟨"position"⟩ (· ≤ TimeInt.MAX))
        (toLex (⟨.sat (-5)⟩, 1)) ∧
      unplacedStore.HoldsRow ⟨["robot"]⟩ ⟨"frame"⟩ ⟨"position"⟩ (positionsChunk 1 [1] [-5])
        (toLex (⟨.sat (-5)⟩, 1)) ∧
      (unplacedStore.latestAtRelevantChunks .ignore ⟨some ⟨"frame"⟩, TimeInt.MAX⟩ ⟨["robot"]⟩
        ⟨"position"⟩).map (fun results => results.chunks.map (·.id)) = some [2] :=
  ⟨unplacedStore_grown, rfl, unplacedStore_latest _ (le_MAX _), unplacedStore_holdsRow, rfl⟩

/-- A query at time 20 finds the row. -/
theorem unplacedStore_latestAt_finds_iff :
    ∃ results, unplacedStore.latestAtRelevantChunks .report ⟨some ⟨"frame"⟩, ⟨.sat 20⟩⟩ ⟨["robot"]⟩
        ⟨"position"⟩ = some results ∧
      (positionsChunk 1 [1] [-5] ∈ results.chunks ↔
        unplacedStore.WithinReach ⟨["robot"]⟩ ⟨"frame"⟩ ⟨"position"⟩ ⟨.sat 20⟩ (positionsChunk 1 [1] [-5])) :=
  latestAt_finds_iff unplacedStore_grown rfl unplacedStore_holdsRow
    (unplacedStore_latest _ (by decide))

/-! ## Range queries -/

/-- No chunk of the key starts after a chunk and an `i64` or more before a time. -/
def NotOvertaken (st : ChunkStore) (e : EntityPath) (timeline : TimelineName) (component : ComponentIdentifier)
    (c : Chunk) (time : Int) : Prop :=
  ∀ range d range', c.componentRange timeline component = some range → st.physical d.id = some d →
    d.entityPath = e → d.componentRange timeline component = some range' → range.min < range'.min →
      time < range'.min.asI64.val + 9223372036854775807

def Meets (c : Chunk) (timeline : TimelineName) (component : ComponentIdentifier) (r : AbsoluteTimeRange) : Prop :=
  ∃ range, c.componentRange timeline component = some range ∧ range.min ≤ r.max ∧ r.min ≤ range.max

variable {query : RangeQuery}

theorem componentIntersects_iff :
    componentIntersects query component c = true ↔ Meets c query.timeline component query.range := by
  unfold componentIntersects Meets Chunk.componentRange
  cases c.timelines.lookup query.timeline with
  | none => simp
  | some tc =>
    have hlookup : (tc.timeRangePerComponent c.components).lookup component =
        (c.components.lookup component).bind fun column => tc.componentTimeRange column.listArray :=
      Assoc.lookup_filterMap c.components _ component
    rw [any_some, bind_some, hlookup, Option.any_eq_true]
    simp only [intersects_iff]

/-- Where the walk starts decides as if the longest interval fit an `i64`: what it would stop at starts an
`i64` or more before the query. -/
theorem not_stopped_iff (hv : st.catalog.Consistent fun _ => True) (hgrown : st.Grown)
    (hc : st.physical c.id = some c) (he : c.entityPath = e) (hmeets : Meets c query.timeline component query.range) :
    (∀ range id u, c.componentRange query.timeline component = some range →
      st.ListedAt id (.component e query.timeline component .start u) →
      u.asI64.val + (I64.ofLength (st.catalog.longest (e, query.timeline, component))).val ≤ query.scanMin →
        u ≤ range.min) ↔ st.NotOvertaken e query.timeline component c query.scanMin := by
  obtain ⟨range, hrange, -, hmin⟩ := hmeets
  have hlongest := max_le_longest hv hc he hrange
  have hscan : query.scanMin ≤ query.range.min.asI64.val := by
    unfold RangeQuery.scanMin
    split <;> omega
  rw [le_def] at hmin
  constructor
  · intro hall range₀ d range' hrange₀ hd he' hrange' hlt
    by_contra hnear
    have hle := hall range₀ d.id range'.min hrange₀ (hgrown.starts_iff.mpr ⟨d, range', hd, he', hrange', rfl⟩)
      (by rw [I64.ofLength_val]; omega)
    exact absurd hlt (not_lt.mpr hle)
  · intro hall range₀ id u hrange₀ hu hle
    obtain rfl := mem_unique hrange hrange₀
    obtain ⟨d, range', hd, he', hrange', rfl⟩ := hgrown.starts_iff.mp hu
    obtain rfl := hv.sound.id_eq id d hd
    by_contra hlt
    have hnear := hall range d range' hrange hd he' hrange' (not_le.mp hlt)
    rw [le_def] at hlt
    rw [I64.ofLength_val] at hle
    omega

/-- No start of the key that the walk of a query stops at is later than that of a chunk. -/
def WalkReaches (st : ChunkStore) (e : EntityPath) (query : RangeQuery) (component : ComponentIdentifier)
    (c : Chunk) : Prop :=
  ∀ range id u, c.componentRange query.timeline component = some range →
    st.ListedAt id (.component e query.timeline component .start u) →
    u.asI64.val + (I64.ofLength (st.catalog.longest (e, query.timeline, component))).val ≤ query.scanMin →
      u ≤ range.min

theorem chunks_of_fromChunkIds {ids : List ChunkId} {results : QueryResults}
    (h : QueryResults.fromChunkIds st mode ids = some results) : results.chunks = ids.filterMap st.physical := by
  unfold QueryResults.fromChunkIds at h
  dsimp only at h
  split at h
  · cases h
  · rw [← some.inj h]

theorem mem_rangeRelevantChunks_of_filed (hv : st.catalog.Filed)
    (hstatic : st.staticChunkIdsPerEntity.lookup (e, component) = none)
    {results : QueryResults} (hresults : st.rangeRelevantChunks mode query e component = some results) :
    results.chunks.Nodup ∧ ∀ c, c ∈ results.chunks ↔ st.physical c.id = some c ∧ c.entityPath = e ∧
      Meets c query.timeline component query.range ∧ st.WalkReaches e query component c := by
  unfold rangeRelevantChunks at hresults
  rw [hstatic] at hresults
  obtain ⟨found, hfound, rfl⟩ := map_eq_some_iff.mp hresults
  have hchunks := chunks_of_fromChunkIds hfound
  rw [hchunks]
  cases hs : st.temporalChunkIdsPerEntityPerComponent.lookup (e, query.timeline, component) with
  | none =>
    refine ⟨.nil, fun c => iff_of_false not_mem_nil ?_⟩
    intro ⟨hc, he, ⟨range, hrange, _⟩, _⟩
    obtain ⟨s, hs', -⟩ := hv.lists c.id c (.component e query.timeline component .start range.min) hc
      ⟨he.symm, range, hrange, rfl⟩
    exact absurd (hs.symm.trans hs') nofun
  | some s =>
    rw [elim_some]
    have hlisted : ∀ {id u}, toLex (u, id) ∈ s.perStartTime ↔
        st.ListedAt id (.component e query.timeline component .start u) := by
      intro id u
      constructor
      · exact fun hmem => ⟨s, hs, hmem⟩
      · intro ⟨s', hs', hmem⟩
        obtain rfl := mem_unique hs hs'
        exact hmem
    have hlength : st.catalog.longest (e, query.timeline, component) = s.maxIntervalLength := by
      show TimeIndex.maxLength _ _ = _
      unfold TimeIndex.maxLength
      rw [hs]
      rfl
    -- a listed chunk starts where it is listed
    have hown : ∀ {id u c}, toLex (u, id) ∈ s.perStartTime → st.physical id = some c → c.entityPath = e ∧
        ∃ range, c.componentRange query.timeline component = some range ∧ range.min = u := by
      intro id u c hmem hc
      obtain ⟨hstarts, hrange⟩ := startsBy_of_listed hv hc (hlisted.mp hmem) le_rfl
      exact ⟨hstarts.entityPath, hrange⟩
    constructor
    · apply Nodup.filter
      have hdistinct : (s.startsIn ((s.lastStartAt (s.walkFrom query)).getD MIN)
          (max ((s.lastStartAt (s.walkFrom query)).getD MIN)
            ((s.lastStartAt (ChunkIdSetPerTime.scanMax query)).getD
              ((s.lastStartAt (s.walkFrom query)).getD MIN)))).Nodup :=
        (s.perStartTime.sorted.imp fun hlt => hlt.ne).filter _
      show (((s.startsIn _ _).map fun p => (ofLex p).2).filterMap st.physical).Nodup
      rw [filterMap_map]
      refine pairwise_filterMap.mpr (hdistinct.imp_of_mem fun {p q} hp hq hne c hc d hd heq => hne ?_)
      obtain rfl : c = d := heq
      have hids : (ofLex p).2 = (ofLex q).2 := (hv.sound.id_eq _ _ hc).symm.trans (hv.sound.id_eq _ _ hd)
      obtain ⟨-, range, hrange, hu⟩ := hown (u := (ofLex p).1) (mem_filter.mp hp).1 hc
      obtain ⟨-, range', hrange', hu'⟩ := hown (u := (ofLex q).1) (mem_filter.mp hq).1 hd
      obtain rfl := mem_unique hrange hrange'
      exact ofLex.injective (Prod.ext (hu.symm.trans hu') hids)
    · intro c
      rw [mem_filter, componentIntersects_iff]
      have hmem : c ∈ (s.range query).filterMap st.physical ↔ st.physical c.id = some c ∧ c.id ∈ s.range query := by
        rw [mem_filterMap]
        constructor
        · intro ⟨id, hid, hphysical⟩
          obtain rfl := hv.sound.id_eq id c hphysical
          exact ⟨hphysical, hid⟩
        · intro ⟨hc, hid⟩
          exact ⟨c.id, hid, hc⟩
      rw [hmem, and_assoc]
      refine and_congr_right fun hc => ?_
      have hfound : c.entityPath = e → Meets c query.timeline component query.range →
          (c.id ∈ s.range query ↔ st.WalkReaches e query component c) := by
        intro he ⟨range, hrange, hmax, _⟩
        have hstart : toLex (range.min, c.id) ∈ s.perStartTime :=
          hlisted.mpr (hv.lists c.id c (.component e query.timeline component .start range.min) hc
            ⟨he.symm, range, hrange, rfl⟩)
        have hsame : ∀ u', toLex (u', c.id) ∈ s.perStartTime → u' = range.min := by
          intro u' hu'
          obtain ⟨-, range', hrange', hmin⟩ := hown hu' hc
          rw [← hmin, mem_unique hrange hrange']
        have hfirst := Chunk.MIN_le_componentRange (hv.sound.chunk _ _ hc) hrange
        rw [ChunkIdSetPerTime.mem_range hfirst hstart hsame hmax]
        unfold WalkReaches
        rw [hlength]
        constructor
        · intro hall range₀ id u hrange₀ hu hle
          obtain rfl := mem_unique hrange hrange₀
          exact hall u (ChunkIdSetPerTime.mem_startTimes.mpr ⟨id, hlisted.mpr hu⟩) hle
        · intro hall u hu hle
          obtain ⟨id, hid⟩ := ChunkIdSetPerTime.mem_startTimes.mp hu
          exact hall range id u hrange (hlisted.mp hid) hle
      constructor
      · intro ⟨hin, hmeets⟩
        obtain ⟨p, hp, hid⟩ := List.mem_map.mp hin
        have hpid : toLex ((ofLex p).1, c.id) ∈ s.perStartTime := hid ▸ (mem_filter.mp hp).1
        have he := (hown hpid hc).1
        exact ⟨he, hmeets, (hfound he hmeets).mp hin⟩
      · intro ⟨he, hmeets, hreaches⟩
        exact ⟨(hfound he hmeets).mpr hreaches, hmeets⟩

theorem mem_rangeRelevantChunks (h : st.Grown)
    (hstatic : st.staticChunkIdsPerEntity.lookup (e, component) = none) (query : RangeQuery) :
    ∃ results, st.rangeRelevantChunks mode query e component = some results ∧
      ∀ c, st.physical c.id = some c → c.entityPath = e →
        (c ∈ results.chunks ↔ Meets c query.timeline component query.range ∧
          st.NotOvertaken e query.timeline component c query.scanMin) := by
  have hv := h.settled.order
  have hloaded : ∀ id ∈ (st.temporalChunkIdsPerEntityPerComponent.lookup (e, query.timeline, component)).elim []
      (fun s => s.range query), st.IsPhysical id := by
    intro id hid
    cases hs : st.temporalChunkIdsPerEntityPerComponent.lookup (e, query.timeline, component) with
    | none =>
      rw [hs] at hid
      cases hid
    | some s =>
      rw [hs] at hid
      obtain ⟨p, hp, rfl⟩ := List.mem_map.mp hid
      have hlisted : st.catalog.listed (ofLex p).2 (.component e query.timeline component .start (ofLex p).1) :=
        ⟨s, hs, (mem_filter.mp hp).1⟩
      exact h.settled.noGhosts _ _ hlisted
  obtain ⟨results, hresults⟩ : ∃ results, st.rangeRelevantChunks mode query e component = some results := by
    unfold rangeRelevantChunks
    rw [hstatic]
    dsimp only
    rw [fromChunkIds_of_loaded hloaded]
    exact ⟨_, rfl⟩
  obtain ⟨-, hmem⟩ := mem_rangeRelevantChunks_of_filed h.filed hstatic hresults
  refine ⟨results, hresults, fun c hc he => ?_⟩
  rw [hmem, and_iff_right hc, and_iff_right he]
  exact and_congr_right fun hmeets => not_stopped_iff hv h hc he hmeets

/-- A range query without extended bounds finds a chunk with a row in the range if and only if no later chunk
stops its walk. -/
theorem range_finds_iff (h : st.Grown) (hstatic : st.staticChunkIdsPerEntity.lookup (e, component) = none)
    (hbounds : query.options.includeExtendedBounds = false)
    (hc : st.HoldsRow e query.timeline component c index) (hin : query.range.contains (ofLex index).1 = true) :
    ∃ results, st.rangeRelevantChunks mode query e component = some results ∧
      (c ∈ results.chunks ↔ st.NotOvertaken e query.timeline component c query.range.min.asI64.val) := by
  obtain ⟨results, hresults, hmem⟩ := @mem_rangeRelevantChunks st e component mode h hstatic query
  obtain ⟨range, hrange, hmin, hmax⟩ := hc.range h.settled.order
  obtain ⟨hlo, hhi⟩ := contains_iff.mp hin
  have hscan : query.scanMin = query.range.min.asI64.val := by
    unfold RangeQuery.scanMin
    rw [hbounds]
    exact Int.sub_zero _
  refine ⟨results, hresults, (hmem c hc.physical hc.entityPath).trans ?_⟩
  rw [hscan]
  exact and_iff_right ⟨range, hrange, hmin.trans hhi, hlo.trans hmax⟩

def longStore : ChunkStore :=
  (Op.insertChunk (.countingFrom 100) ⟨positionsChunk 2 [3] [-9223372036854775800], rfl⟩).run
    ((Op.insertChunk (.countingFrom 100) ⟨positionsChunk 1 [1, 2] [-9223372036854775807, 100], rfl⟩).run
      (.new ⟨0, 0, 0⟩))

theorem longStore_grown : longStore.Grown :=
  .step (.step (.new _) fresh_countingFrom rfl)
    fresh_countingFrom rfl

theorem longStore_holdsRow :
    longStore.HoldsRow ⟨["robot"]⟩ ⟨"frame"⟩ ⟨"position"⟩
      (positionsChunk 1 [1, 2] [-9223372036854775807, 100]) (toLex (⟨.sat 100⟩, 2)) :=
  ⟨rfl, rfl, 1, .sat 100, 2, ⟨rfl, rfl⟩, rfl, rfl⟩

def framesQuery (min max : Int) (includeExtendedBounds : Bool) : RangeQuery :=
  ⟨⟨"frame"⟩, ⟨⟨.sat min⟩, ⟨.sat max⟩⟩, ⟨false, false, includeExtendedBounds⟩⟩

/-- The row at time 100 is in the range from 100 to 100, and the query finds no chunk. -/
theorem longStore_range_incomplete :
    longStore.Grown ∧ longStore.staticChunkIdsPerEntity.lookup (⟨["robot"]⟩, ⟨"position"⟩) = none ∧
      longStore.HoldsRow ⟨["robot"]⟩ ⟨"frame"⟩ ⟨"position"⟩
        (positionsChunk 1 [1, 2] [-9223372036854775807, 100]) (toLex (⟨.sat 100⟩, 2)) ∧
      (framesQuery 100 100 false).range.contains ⟨.sat 100⟩ = true ∧
      (longStore.rangeRelevantChunks .ignore (framesQuery 100 100 false) ⟨["robot"]⟩
        ⟨"position"⟩).map (fun results => results.chunks.map (·.id)) = some [] :=
  ⟨longStore_grown, rfl, longStore_holdsRow, by decide, rfl⟩

/-- From time 0 on the query finds it. -/
theorem longStore_range_finds_iff :
    ∃ results, longStore.rangeRelevantChunks .report (framesQuery 0 100 false) ⟨["robot"]⟩
        ⟨"position"⟩ = some results ∧
      (positionsChunk 1 [1, 2] [-9223372036854775807, 100] ∈ results.chunks ↔
        longStore.NotOvertaken ⟨["robot"]⟩ ⟨"frame"⟩ ⟨"position"⟩
          (positionsChunk 1 [1, 2] [-9223372036854775807, 100]) 0) :=
  range_finds_iff longStore_grown rfl rfl longStore_holdsRow (by decide)

/-- A row next to a range: the last one before it, or the first one after it. -/
def NextTo (st : ChunkStore) (e : EntityPath) (timeline : TimelineName) (component : ComponentIdentifier)
    (r : AbsoluteTimeRange) (index : TimeInt ×ₗ RowId) : Prop :=
  IsGreatest (st.rowsWhere e timeline component (· < r.min)) index ∨
    IsLeast (st.rowsWhere e timeline component (r.max < ·)) index

/-- A range query with extended bounds finds the rows next to the range if and only if they are in chunks
that meet the range itself, and no later chunk stops its walk. -/
theorem extendedRange_finds_iff (h : st.Grown)
    (hstatic : st.staticChunkIdsPerEntity.lookup (e, component) = none)
    (hbounds : query.options.includeExtendedBounds = true) :
    ∃ results, st.rangeRelevantChunks mode query e component = some results ∧
      ((∀ index, st.NextTo e query.timeline component query.range index →
          ∃ c ∈ results.chunks, st.HoldsRow e query.timeline component c index) ↔
        ∀ index, st.NextTo e query.timeline component query.range index →
          ∃ c, st.HoldsRow e query.timeline component c index ∧ Meets c query.timeline component query.range ∧
            st.NotOvertaken e query.timeline component c (query.range.min.asI64.val - 1)) := by
  obtain ⟨results, hresults, hmem⟩ := @mem_rangeRelevantChunks st e component mode h hstatic query
  have hscan : query.scanMin = query.range.min.asI64.val - 1 := by
    unfold RangeQuery.scanMin
    rw [hbounds]
    rfl
  refine ⟨results, hresults, forall_congr' fun index => imp_congr_right fun _ => ?_⟩
  constructor
  · intro ⟨c, hin, hc⟩
    have hfound := (hmem c hc.physical hc.entityPath).mp hin
    rw [hscan] at hfound
    exact ⟨c, hc, hfound⟩
  · intro ⟨c, hc, hfound⟩
    rw [← hscan] at hfound
    exact ⟨c, (hmem c hc.physical hc.entityPath).mpr hfound, hc⟩

def gapStore : ChunkStore :=
  (Op.insertChunk (.countingFrom 100) ⟨positionsChunk 2 [2] [12], rfl⟩).run
    ((Op.insertChunk (.countingFrom 100) ⟨positionsChunk 1 [1] [2], rfl⟩).run (.new ⟨0, 0, 0⟩))

theorem gapStore_grown : gapStore.Grown :=
  .step (.step (.new _) fresh_countingFrom rfl)
    fresh_countingFrom rfl

theorem gapStore_rows (h : gapStore.HoldsRow ⟨["robot"]⟩ ⟨"frame"⟩ ⟨"position"⟩ c index) :
    index = toLex (⟨.sat 2⟩, 1) ∨ index = toLex (⟨.sat 12⟩, 2) := by
  have hmem := Assoc.mem_toList.mpr h.physical
  have hlist : Assoc.toList gapStore.physicalChunksPerChunkId =
      [(2, positionsChunk 2 [2] [12]), (1, positionsChunk 1 [1] [2])] := rfl
  rcases mem_cons.mp hmem with hc | hmem
  · obtain rfl : c = positionsChunk 2 [2] [12] := congrArg Prod.snd hc
    obtain ⟨i, t, r, ht, hr, rfl⟩ := h.of_positions
    cases i with
    | zero =>
      cases ht
      cases hr
      exact .inr rfl
    | succ i => cases ht
  · obtain rfl : c = positionsChunk 1 [1] [2] := congrArg Prod.snd (mem_singleton.mp hmem)
    obtain ⟨i, t, r, ht, hr, rfl⟩ := h.of_positions
    cases i with
    | zero =>
      cases ht
      cases hr
      exact .inl rfl
    | succ i => cases ht

/-- The row at time 2 is the last one before the range from 5 to 8, and the query finds no chunk. -/
theorem gapStore_extendedRange_incomplete :
    gapStore.Grown ∧ gapStore.staticChunkIdsPerEntity.lookup (⟨["robot"]⟩, ⟨"position"⟩) = none ∧
      gapStore.NextTo ⟨["robot"]⟩ ⟨"frame"⟩ ⟨"position"⟩ (framesQuery 5 8 true).range (toLex (⟨.sat 2⟩, 1)) ∧
      (gapStore.rangeRelevantChunks .ignore (framesQuery 5 8 true) ⟨["robot"]⟩
        ⟨"position"⟩).map (fun results => results.chunks.map (·.id)) = some [] := by
  refine ⟨gapStore_grown, rfl, .inl ⟨⟨by decide, positionsChunk 1 [1] [2], ?_⟩, fun index hindex => ?_⟩, rfl⟩
  · exact ⟨rfl, rfl, 0, .sat 2, 1, ⟨rfl, rfl⟩, rfl, rfl⟩
  · obtain ⟨hlt, d, hd⟩ := hindex
    rcases gapStore_rows hd with rfl | rfl
    · exact le_rfl
    · exact absurd hlt (by decide)

/-- Neither side holds there. -/
theorem gapStore_extendedRange_finds_iff :
    ∃ results, gapStore.rangeRelevantChunks .report (framesQuery 5 8 true) ⟨["robot"]⟩
        ⟨"position"⟩ = some results ∧
      ((∀ index, gapStore.NextTo ⟨["robot"]⟩ ⟨"frame"⟩ ⟨"position"⟩ (framesQuery 5 8 true).range index →
          ∃ c ∈ results.chunks, gapStore.HoldsRow ⟨["robot"]⟩ ⟨"frame"⟩ ⟨"position"⟩ c index) ↔
        ∀ index, gapStore.NextTo ⟨["robot"]⟩ ⟨"frame"⟩ ⟨"position"⟩ (framesQuery 5 8 true).range index →
          ∃ c, gapStore.HoldsRow ⟨["robot"]⟩ ⟨"frame"⟩ ⟨"position"⟩ c index ∧
            Meets c ⟨"frame"⟩ ⟨"position"⟩ (framesQuery 5 8 true).range ∧
            gapStore.NotOvertaken ⟨["robot"]⟩ ⟨"frame"⟩ ⟨"position"⟩ c
              ((framesQuery 5 8 true).range.min.asI64.val - 1)) :=
  extendedRange_finds_iff gapStore_grown rfl rfl

end ChunkStore

end Dalaran
