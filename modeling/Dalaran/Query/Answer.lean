import Dalaran.Query.LatestRow

/-
  What a query for one component selects in a store.

  The chunks that may hold the row are walked from the latest start to the
  earliest one, and a later chunk wins a tie. So the unit of a query is the
  greatest one by its index and by the place of its chunk on the walk
  (`walkUnit_eq_some_iff`).

  The walk goes back from the last start by the longest interval. A chunk further
  back ends before the last start, and a loaded chunk that starts there has a row
  there (`exists_greater_in_window`), except for a component without a cell, whose
  interval is longer than an `i64`. `ReachesBack` is what an answer needs to be one
  at the time of its own row, too (`Answers.at_data_time`).
-/

namespace Dalaran

open List Option Chunk ChunkIdSetPerTime TimeInt Prod

/-! ## Where chunks are listed -/

/-- The chunks are sound and listed at their own slots, where their components start at no other
time, and no interval is longer than the longest one of its key. -/
structure Catalog.Filed (v : Catalog) : Prop where
  sound : v.Sound
  lists : ∀ id c s, v.chunks id = some c → c.OwnSlot s → v.listed id s
  own : ∀ id c e timeline component t, v.chunks id = some c →
    v.listed id (.component e timeline component .start t) → c.OwnSlot (.component e timeline component .start t)
  covered : v.Covered

/-! ## The walk over the chunks -/

/-- The place of a chunk on the walk: later starts first, and ids of one start in ascending order. -/
def Chunk.walkPlace (timeline : TimelineName) (component : ComponentIdentifier) (c : Chunk) :
    TimeIntᵒᵈ ×ₗ ChunkId :=
  toLex (OrderDual.toDual ((c.componentRange timeline component).elim TimeInt.MIN (·.min)), c.id)

/-- What decides between two rows: the index, then the place of the chunk. -/
def Chunk.rank (timeline : TimelineName) (component : ComponentIdentifier) (index : TimeInt ×ₗ RowId)
    (c : Chunk) : (TimeInt ×ₗ RowId) ×ₗ (TimeIntᵒᵈ ×ₗ ChunkId) :=
  toLex (index, c.walkPlace timeline component)

variable {index index' : TimeInt ×ₗ RowId}

theorem Chunk.index_le_of_rank_le {timeline : TimelineName} {component : ComponentIdentifier} {c c' : Chunk}
    (h : c.rank timeline component index ≤ c'.rank timeline component index') : index ≤ index' :=
  Lex.monotone_fst _ _ h

theorem Chunk.temporal_of_componentRange {timeline : TimelineName} {component : ComponentIdentifier}
    {range : AbsoluteTimeRange} {c : Chunk} (h : c.componentRange timeline component = some range) :
    c.isStatic = false := by
  obtain ⟨tc, htc, -⟩ := bind_eq_some_iff.mp h
  exact isStatic_eq_false_iff.mpr ⟨timeline, by rw [htc]; rfl⟩

namespace ChunkStore

structure StartsBy (st : ChunkStore) (e : EntityPath) (timeline : TimelineName)
    (component : ComponentIdentifier) (t : TimeInt) (c : Chunk) : Prop where
  physical : st.physical c.id = some c
  entityPath : c.entityPath = e
  start : ∃ range, c.componentRange timeline component = some range ∧ range.min ≤ t

/-- A physical chunk is among those a query asks for. -/
structure Asked (st : ChunkStore) (e : EntityPath) (timeline : TimelineName)
    (component : ComponentIdentifier) (t : TimeInt) (c : Chunk) : Prop where
  physical : st.physical c.id = some c
  inWindow : st.catalog.InWindow e timeline component t c.id

structure Answers (st : ChunkStore) (e : EntityPath) (timeline : TimelineName)
    (component : ComponentIdentifier) (t : TimeInt) (unit : UnitChunkShared) : Prop where
  asked : st.Asked e timeline component t unit.chunk
  greatest : ∃ index, unit.chunk.latestUnit ⟨some timeline, t⟩ component = some (index, unit) ∧
    ∀ c index' unit', st.Asked e timeline component t c →
      c.latestUnit ⟨some timeline, t⟩ component = some (index', unit') →
        Chunk.rank timeline component index' c ≤ Chunk.rank timeline component index unit.chunk

/-- Every id a query asks for has a chunk. -/
def LoadedAt (st : ChunkStore) (e : EntityPath) (timeline : TimelineName)
    (component : ComponentIdentifier) (t : TimeInt) : Prop :=
  ∀ id, st.catalog.InWindow e timeline component t id → st.IsPhysical id

/-- A query reaches back far enough: the longest interval fits an `i64`, or the query asks for every id
that is listed at or before its time. -/
def ReachesBack (st : ChunkStore) (e : EntityPath) (timeline : TimelineName)
    (component : ComponentIdentifier) (t : TimeInt) : Prop :=
  st.catalog.longest (e, timeline, component) ≤ 9223372036854775807 ∨
    ∀ id u, st.ListedAt id (.component e timeline component .start u) → u ≤ t →
      st.catalog.InWindow e timeline component t id

variable {st : ChunkStore} {e : EntityPath} {timeline : TimelineName} {component : ComponentIdentifier}
  {t : TimeInt} {unit unit' : UnitChunkShared} {c : Chunk}

theorem Answers.unique (h : st.Answers e timeline component t unit)
    (h' : st.Answers e timeline component t unit') : unit = unit' := by
  obtain ⟨index, hunit, hall⟩ := h.greatest
  obtain ⟨index', hunit', hall'⟩ := h'.greatest
  have hrank := le_antisymm (hall' _ _ _ h.asked hunit) (hall _ _ _ h'.asked hunit')
  have hplace := congrArg snd (toLex.injective hrank)
  have hid : unit.chunk.id = unit'.chunk.id := congrArg snd (toLex.injective hplace)
  have hchunk : unit.chunk = unit'.chunk := by
    have hphys := h.asked.physical
    rw [hid, h'.asked.physical] at hphys
    exact (some.inj hphys).symm
  rw [hchunk, hunit'] at hunit
  exact (congrArg snd (some.inj hunit)).symm

theorem StartsBy.temporal (h : st.StartsBy e timeline component t c) : c.isStatic = false := by
  obtain ⟨range, hrange, -⟩ := h.start
  exact temporal_of_componentRange hrange

theorem StartsBy.listed (hv : st.catalog.Filed) (h : st.StartsBy e timeline component t c)
    {range : AbsoluteTimeRange} (hrange : c.componentRange timeline component = some range) :
    st.ListedAt c.id (.component e timeline component .start range.min) := by
  have hown : c.OwnSlot (.component e timeline component .start range.min) :=
    ⟨h.entityPath.symm, range, hrange, rfl⟩
  exact hv.lists c.id c _ h.physical hown

variable {id : ChunkId} {u : TimeInt}

theorem startsBy_of_listed (hv : st.catalog.Filed) (hc : st.physical id = some c)
    (hu : st.ListedAt id (.component e timeline component .start u)) (hle : u ≤ t) :
    st.StartsBy e timeline component t c ∧ ∃ range, c.componentRange timeline component = some range ∧
      range.min = u := by
  obtain ⟨he, range, hrange, hmin⟩ := hv.own id c e timeline component u hc hu
  have hmin' : u = range.min := hmin
  have hid : c.id = id := hv.sound.id_eq id c hc
  exact ⟨⟨hid.symm ▸ hc, he.symm, range, hrange, hmin' ▸ hle⟩, range, hrange, hmin'.symm⟩

theorem Asked.startsBy (hv : st.catalog.Filed) (h : st.Asked e timeline component t c) :
    st.StartsBy e timeline component t c := by
  obtain ⟨u, hu, hle, -⟩ := h.inWindow
  exact (startsBy_of_listed hv h.physical hu hle).1

theorem StartsBy.selects (hv : st.catalog.Filed) (h : st.StartsBy e timeline component t c) :
    c.Selects ⟨some timeline, t⟩ component (c.latestAt ⟨some timeline, t⟩ component) := by
  obtain ⟨range, hrange, hle⟩ := h.start
  exact latestAt_selects (hv.sound.chunk _ _ h.physical) h.temporal rfl hrange hle

theorem exists_last_start (hu : st.ListedAt id (.component e timeline component .start u))
    (hle : u ≤ t) :
    ∃ id' u', st.ListedAt id' (.component e timeline component .start u') ∧ u' ≤ t ∧
      ∀ id'' u'', st.ListedAt id'' (.component e timeline component .start u'') → u'' ≤ t → u'' ≤ u' := by
  obtain ⟨s, hs, hmem⟩ := hu
  have hne : s.startTimes.filter (fun v => decide (v ≤ t)) ≠ [] := ne_nil_of_mem
    (mem_filter.mpr ⟨mem_startTimes.mpr ⟨id, hmem⟩, decide_eq_true hle⟩)
  obtain ⟨last, hlast⟩ := ne_none_iff_exists'.mp fun h => hne (List.getLast?_eq_none_iff.mp h)
  obtain ⟨⟨hstart, hle'⟩, hmax⟩ := lastStartAt_eq_some_iff.mp hlast
  obtain ⟨id', hid'⟩ := mem_startTimes.mp hstart
  refine ⟨id', last, ⟨s, hs, hid'⟩, hle', fun id'' u'' ⟨s', hs', hmem'⟩ hle'' => ?_⟩
  rw [hs] at hs'
  rw [← some.inj hs'] at hmem'
  exact hmax u'' (mem_startTimes.mpr ⟨id'', hmem'⟩) hle''

theorem inWindow_of_last {last : TimeInt} (hlast : st.ListedAt id (.component e timeline component .start last))
    (hle : last ≤ t) (hmax : ∀ id' u, st.ListedAt id' (.component e timeline component .start u) → u ≤ t → u ≤ last) :
    st.catalog.InWindow e timeline component t id := by
  refine ⟨last, hlast, hle, fun id' u hu hut => ?_⟩
  have hle' := hmax id' u hu hut
  have hlo := last.asI64.lo
  rw [le_def] at hle'
  rw [I64.le_def, I64.saturatingSub_val, I64.ofLength_val]
  omega

theorem exists_last_row (hv : st.catalog.Filed) (hloaded : st.LoadedAt e timeline component t)
    (hlength : st.catalog.longest (e, timeline, component) ≤ 9223372036854775807)
    (hu : st.ListedAt id (.component e timeline component .start u)) (hle : u ≤ t) :
    ∃ last d j lo r, st.Asked e timeline component t d ∧
      d.CellIndex (some timeline) component j (toLex (⟨lo⟩, r)) ∧ last = ⟨lo⟩ ∧ last ≤ t ∧
      ∀ id' u', st.ListedAt id' (.component e timeline component .start u') → u' ≤ t → u' ≤ last := by
  obtain ⟨id', last, hlast, hlastt, hmax⟩ := exists_last_start hu hle
  have hwindow := inWindow_of_last hlast hlastt hmax
  obtain ⟨d, hd⟩ := isSome_iff_exists.mp (hloaded id' hwindow)
  obtain ⟨hstarts, range, hrange, hmin⟩ := startsBy_of_listed hv hd hlast hlastt
  have hdid : d.id = id' := hv.sound.id_eq id' d hd
  have hdsound := hv.sound.chunk id' d hd
  have hcovered : range.absLength ≤ st.catalog.longest (e, timeline, component) := by
    have h := hv.covered id' d timeline component range hd hrange
    rw [hstarts.entityPath] at h
    exact h
  have hasked : st.Asked e timeline component t d := ⟨hstarts.physical, hdid.symm ▸ hwindow⟩
  obtain ⟨tc, htc, hbind⟩ := bind_eq_some_iff.mp hrange
  obtain ⟨column, hcol, -⟩ := bind_eq_some_iff.mp hbind
  by_cases hsome : ∃ j lo, d.HasCellAt timeline component j lo
  · obtain ⟨i, time, hi⟩ := hsome
    obtain ⟨-, -, j, lo, hj, hlo⟩ := componentRange_min_le hdsound.wf hrange hi
    obtain ⟨r, hr⟩ := hj.cellIndex hstarts.temporal hdsound.wf
    exact ⟨last, d, j, lo, r, hasked, hr, hmin.symm.trans hlo, hlastt, hmax⟩
  · -- the empty range is longer than that
    rw [componentRange_of_all_null hdsound.wf hdsound.nonempty htc hcol hsome] at hrange
    rw [← some.inj hrange] at hcovered
    have hempty : AbsoluteTimeRange.EMPTY.absLength = 18446744073709551614 := rfl
    omega

theorem exists_greater_in_window (hv : st.catalog.Filed) (hloaded : st.LoadedAt e timeline component t)
    (hlength : st.catalog.longest (e, timeline, component) ≤ 9223372036854775807)
    (hc : st.StartsBy e timeline component t c) (hout : ¬ st.catalog.InWindow e timeline component t c.id)
    (hunit : c.latestUnit ⟨some timeline, t⟩ component = some (index, unit)) :
    ∃ d index' unit', st.Asked e timeline component t d ∧
      d.latestUnit ⟨some timeline, t⟩ component = some (index', unit') ∧ index < index' := by
  obtain ⟨range, hrange, hle⟩ := hc.start
  have hlisted := hc.listed hv hrange
  -- some start is further after the start of the chunk than the longest interval
  have hfar : ∃ id u, st.ListedAt id (.component e timeline component .start u) ∧ u ≤ t ∧
      range.min.asI64 < u.asI64.saturatingSub (I64.ofLength (st.catalog.longest (e, timeline, component))) := by
    by_contra hnone
    refine hout ⟨range.min, hlisted, hle, fun id u hu hut => not_lt.mp fun hlt => hnone ?_⟩
    exact ⟨id, u, hu, hut, hlt⟩
  obtain ⟨id, u, hu, hut, hlt⟩ := hfar
  obtain ⟨last, d, j, lo, r, hasked, hj, hlo, hlastt, hmax⟩ := exists_last_row hv hloaded hlength hu hut
  -- the row of the chunk out of reach is before that
  obtain ⟨hcellc, -⟩ := (hc.selects hv).greatest hunit
  have hbefore : (ofLex index).1 < last ∧ TimeInt.MIN ≤ (ofLex index).1 := by
    have hsound := hv.sound.chunk _ _ hc.physical
    obtain ⟨time, r', hhas, -, rfl⟩ := (cellIndex_iff hc.temporal hsound.wf).mp hcellc
    obtain ⟨hmin, hmaxr, -⟩ := componentRange_min_le hsound.wf hrange hhas
    have hcovered : range.absLength ≤ st.catalog.longest (e, timeline, component) := by
      have h := hv.covered c.id c timeline component range hc.physical hrange
      rw [hc.entityPath] at h
      exact h
    have hfirst := Chunk.MIN_le_componentRange hsound hrange
    have hulast := hmax id u hu hut
    refine ⟨?_, hfirst.trans hmin⟩
    rw [I64.lt_def, I64.saturatingSub_val, I64.ofLength_val] at hlt
    rw [le_def] at hmin hmaxr hfirst hulast
    rw [lt_def]
    unfold AbsoluteTimeRange.absLength I64.absDiff at hcovered
    rw [TimeInt.MIN_val] at hfirst
    have htime : (ofLex (toLex ((⟨time⟩ : TimeInt), r'))).1.asI64.val = time.val := rfl
    simp only at hmin hmaxr
    omega
  have hindex : index < toLex ((⟨lo⟩ : TimeInt), r) := by
    refine Lex.lt_iff.mpr (.inl ?_)
    have h := hbefore.1
    rw [hlo] at h
    exact h
  cases hdunit : d.latestUnit ⟨some timeline, t⟩ component with
  | none =>
    have hfirst := ((hasked.startsBy hv).selects hv).no_unit hdunit hj (hlo ▸ hlastt)
    have htime : last ≤ TimeInt.MIN := by
      rw [hlo]
      exact Lex.monotone_fst _ _ hfirst
    exact absurd (hbefore.2.trans_lt hbefore.1) (not_lt.mpr htime)
  | some answer =>
    obtain ⟨index', unit'⟩ := answer
    obtain ⟨-, -, hall⟩ := ((hasked.startsBy hv).selects hv).greatest hdunit
    exact ⟨d, index', unit', hasked, hdunit, hindex.trans_le (hall j _ hj (hlo ▸ hlastt))⟩

/-! ## The answer of the walk -/

theorem latestAtChunkIds_walk (hv : st.catalog.Filed) :
    (st.latestAtChunkIds ⟨some timeline, t⟩ e component).Pairwise fun id id' =>
      ∀ c c', st.physical id = some c → st.physical id' = some c' →
        c.walkPlace timeline component < c'.walkPlace timeline component := by
  unfold latestAtChunkIds
  rw [bind_some]
  cases hs : st.temporalChunkIdsPerEntityPerComponent.lookup (e, timeline, component) with
  | none => exact List.Pairwise.nil
  | some s =>
    rw [bind_some]
    unfold ChunkIdSetPerTime.latestAt
    cases s.lastStartAt t with
    | none => exact List.Pairwise.nil
    | some upper =>
      rw [map_some, getD_some, pairwise_flatMap]
      have hplace : ∀ {u id c}, id ∈ idsAt s.perStartTime u → st.physical id = some c →
          c.walkPlace timeline component = toLex (OrderDual.toDual u, id) := by
        intro u id c hid hc
        have hlisted : st.ListedAt id (.component e timeline component .start u) :=
          ⟨s, hs, mem_idsAt.mp hid⟩
        obtain ⟨-, range, hrange, hmin⟩ := startsBy_of_listed hv hc hlisted le_rfl
        unfold Chunk.walkPlace
        rw [hrange, elim_some, hmin, hv.sound.id_eq id c hc]
      constructor
      · -- ids of one start
        intro u _
        have hsorted : (idsAt s.perStartTime u).Pairwise (· < ·) := by
          unfold idsAt
          rw [pairwise_map]
          refine ((s.perStartTime.sorted.filter _).imp_of_mem fun {p q} hp hq hpq => ?_)
          have hpu := of_decide_eq_true (mem_filter.mp hp).2
          have hqu := of_decide_eq_true (mem_filter.mp hq).2
          rcases Lex.lt_iff.mp hpq with hlt | ⟨-, hlt⟩
          · rw [hpu, hqu] at hlt
            exact absurd hlt (lt_irrefl u)
          · exact hlt
        refine hsorted.imp_of_mem fun {id id'} hid hid' hlt c c' hc hc' => ?_
        rw [hplace hid hc, hplace hid' hc']
        exact Lex.toLex_lt_toLex.mpr (.inr ⟨rfl, hlt⟩)
      · -- starts, the latest first
        have hstarts : s.startTimes.dedup.Pairwise (· < ·) := by
          have hle : s.startTimes.dedup.Pairwise (· ≤ ·) :=
            s.startTimes_sorted.sublist (dedup_sublist _)
          exact (hle.and (nodup_dedup s.startTimes)).imp fun h => lt_of_le_of_ne h.1 h.2
        have hdesc : ((s.startTimes.dedup.filter fun u => decide (u ≤ t)).reverse).Pairwise
            fun u u' => u' < u := pairwise_reverse.mpr (hstarts.filter _)
        refine (hdesc.sublist (takeWhile_sublist _)).imp fun {u u'} hlt id hid id' hid' c c' hc hc' => ?_
        rw [hplace hid hc, hplace hid' hc']
        exact Lex.toLex_lt_toLex.mpr (.inl hlt)

/-- The unit that a walk over the asked-for chunks selects. -/
def walkUnit (st : ChunkStore) (query : LatestAtQuery) (e : EntityPath) (component : ComponentIdentifier) :
    Option ((TimeInt ×ₗ RowId) × UnitChunkShared) :=
  Seq.maxByKey (fun selected => selected.1)
    (((st.latestAtChunkIds query e component).filterMap st.physical).filterMap
      (Chunk.latestUnit query component))

theorem mem_walk_iff (hv : st.catalog.Filed) :
    (index, unit) ∈ ((st.latestAtChunkIds ⟨some timeline, t⟩ e component).filterMap st.physical).filterMap
        (Chunk.latestUnit ⟨some timeline, t⟩ component) ↔
      st.Asked e timeline component t unit.chunk ∧
        unit.chunk.latestUnit ⟨some timeline, t⟩ component = some (index, unit) := by
  rw [mem_filterMap]
  constructor
  · intro ⟨c, hc, hunit⟩
    obtain ⟨id, hid, hphys⟩ := mem_filterMap.mp hc
    have hchunk := (latestUnit_eq_some_iff.mp hunit).1
    obtain ⟨timeline', htimeline', hwindow⟩ := mem_latestAtChunkIds.mp hid
    cases htimeline'
    have hcid : c.id = id := hv.sound.id_eq id c hphys
    rw [hchunk]
    exact ⟨⟨hcid.symm ▸ hphys, hcid.symm ▸ hwindow⟩, hunit⟩
  · intro ⟨hasked, hunit⟩
    refine ⟨unit.chunk, mem_filterMap.mpr ⟨unit.chunk.id, ?_, hasked.physical⟩, hunit⟩
    exact mem_latestAtChunkIds.mpr ⟨timeline, rfl, hasked.inWindow⟩

theorem latestUnit_of_walkUnit_eq_none (hv : st.catalog.Filed)
    (hnone : st.walkUnit ⟨some timeline, t⟩ e component = none) (hc : st.Asked e timeline component t c) :
    c.latestUnit ⟨some timeline, t⟩ component = none := by
  by_contra hne
  obtain ⟨⟨index, unit⟩, hunit⟩ := ne_none_iff_exists'.mp hne
  have hchunk := (latestUnit_eq_some_iff.mp hunit).1
  have hmem := (mem_walk_iff hv).mpr ⟨hchunk.symm ▸ hc, hchunk.symm ▸ hunit⟩
  rw [Seq.maxByKey_eq_none_iff.mp hnone] at hmem
  cases hmem

theorem walkUnit_eq_some_iff (hv : st.catalog.Filed) :
    st.walkUnit ⟨some timeline, t⟩ e component = some (index, unit) ↔
      st.Answers e timeline component t unit ∧
        unit.chunk.latestUnit ⟨some timeline, t⟩ component = some (index, unit) := by
  have hplaces : (((st.latestAtChunkIds ⟨some timeline, t⟩ e component).filterMap st.physical).filterMap
      (Chunk.latestUnit ⟨some timeline, t⟩ component)).Pairwise fun x y =>
        x.2.chunk.walkPlace timeline component < y.2.chunk.walkPlace timeline component := by
    rw [pairwise_filterMap, pairwise_filterMap]
    refine (latestAtChunkIds_walk hv).imp fun {id id'} h c hc c' hc' x hx y hy => ?_
    rw [(latestUnit_eq_some_iff.mp hx).1, (latestUnit_eq_some_iff.mp hy).1]
    exact h c c' hc hc'
  unfold walkUnit
  rw [Seq.maxByKey_eq_some_iff hplaces, mem_walk_iff hv]
  constructor
  · intro ⟨⟨hasked, hunit⟩, hall⟩
    refine ⟨⟨hasked, index, hunit, fun c index' unit' hc hunit' => ?_⟩, hunit⟩
    have hchunk' := (latestUnit_eq_some_iff.mp hunit').1
    have h := hall (index', unit') ((mem_walk_iff hv).mpr (by rw [hchunk']; exact ⟨hc, hunit'⟩))
    rw [hchunk'] at h
    exact h
  · intro ⟨⟨hasked, index₀, hunit₀, hall⟩, hunit⟩
    have heq : index₀ = index := congrArg fst (mem_unique hunit₀ hunit)
    rw [heq] at hall
    refine ⟨⟨hasked, hunit⟩, fun x hx => ?_⟩
    obtain ⟨index', unit'⟩ := x
    obtain ⟨hc, hunit'⟩ := (mem_walk_iff hv).mp hx
    exact hall _ index' unit' hc hunit'

theorem Answers.start_le (hv : st.catalog.Filed) (hloaded : st.LoadedAt e timeline component t)
    (hlength : st.catalog.longest (e, timeline, component) ≤ 9223372036854775807)
    (h : st.Answers e timeline component t unit)
    (hunit : unit.chunk.latestUnit ⟨some timeline, t⟩ component = some (index, unit))
    (hu : st.ListedAt id (.component e timeline component .start u)) (hle : u ≤ t) :
    u ≤ (ofLex index).1 := by
  obtain ⟨last, d, j, lo, r, hasked, hj, hlo, hlastt, hmax⟩ := exists_last_row hv hloaded hlength hu hle
  obtain ⟨index₀, hunit₀, hall⟩ := h.greatest
  obtain rfl : index₀ = index := congrArg fst (mem_unique hunit₀ hunit)
  have hstarts := h.asked.startsBy hv
  have hlast : last ≤ (ofLex index₀).1 := by
    cases hdunit : d.latestUnit ⟨some timeline, t⟩ component with
    | none =>
      have hfirst := ((hasked.startsBy hv).selects hv).no_unit hdunit hj (hlo ▸ hlastt)
      obtain ⟨hcell, -⟩ := (hstarts.selects hv).greatest hunit
      rw [hlo]
      exact (Lex.monotone_fst _ _ hfirst).trans (hcell.MIN_le hstarts.temporal)
    | some answer =>
      obtain ⟨index₁, unit₁⟩ := answer
      have h1 := (((hasked.startsBy hv).selects hv).greatest hdunit).2.2 j _ hj (hlo ▸ hlastt)
      have h2 := index_le_of_rank_le (hall d index₁ unit₁ hasked hdunit)
      rw [hlo]
      exact Lex.monotone_fst _ _ (h1.trans h2)
  exact (hmax id u hu hle).trans hlast

theorem Answers.at_data_time (hv : st.catalog.Filed) (hloaded : st.LoadedAt e timeline component t)
    (hreach : st.ReachesBack e timeline component t) (h : st.Answers e timeline component t unit)
    (hunit : unit.chunk.latestUnit ⟨some timeline, t⟩ component = some (index, unit)) :
    st.LoadedAt e timeline component (ofLex index).1 ∧ st.Answers e timeline component (ofLex index).1 unit := by
  obtain ⟨index₀, hunit₀, hall⟩ := h.greatest
  obtain rfl : index₀ = index := congrArg fst (mem_unique hunit₀ hunit)
  have hstarts := h.asked.startsBy hv
  obtain ⟨hcell, hle, -⟩ := (hstarts.selects hv).greatest hunit
  have hle' : (ofLex index₀).1 ≤ t := hle
  have hsound := hv.sound.chunk _ _ hstarts.physical
  have hfirst := hcell.MIN_le hstarts.temporal
  -- the query at the time of the row asks for no other ids
  have hback : ∀ id, st.catalog.InWindow e timeline component (ofLex index₀).1 id →
      st.catalog.InWindow e timeline component t id := by
    intro id ⟨u, hu, hut, hall'⟩
    rcases hreach with hlength | hevery
    · refine ⟨u, hu, hut.trans hle', fun id' u' hu' hut' => hall' id' u' hu' ?_⟩
      exact h.start_le hv hloaded hlength hunit hu' hut'
    · exact hevery id u hu (hut.trans hle')
  have hasked : ∀ c, st.Asked e timeline component (ofLex index₀).1 c → st.Asked e timeline component t c :=
    fun c hc => ⟨hc.physical, hback c.id hc.inWindow⟩
  -- no chunk has a row between the two times
  have hsame : ∀ c, st.StartsBy e timeline component (ofLex index₀).1 c → st.Asked e timeline component t c →
      c.latestAt ⟨some timeline, t⟩ component = c.latestAt ⟨some timeline, (ofLex index₀).1⟩ component := by
    intro c hc hct
    obtain ⟨range, hrange, hmin⟩ := hc.start
    refine latestAt_congr (hv.sound.chunk _ _ hc.physical) hc.temporal hrange hmin hle
      fun i index' hi hle'' => ?_
    cases hunit' : c.latestUnit ⟨some timeline, t⟩ component with
    | none =>
      have h := ((hct.startsBy hv).selects hv).no_unit hunit' hi hle''
      exact (Lex.monotone_fst _ _ h).trans hfirst
    | some answer =>
      obtain ⟨index₁, unit₁⟩ := answer
      have h1 := (((hct.startsBy hv).selects hv).greatest hunit').2.2 i index' hi hle''
      have h2 := index_le_of_rank_le (hall c index₁ unit₁ hct hunit')
      exact Lex.monotone_fst _ _ (h1.trans h2)
  have hstarts' : st.StartsBy e timeline component (ofLex index₀).1 unit.chunk := by
    obtain ⟨range, hrange, -⟩ := hstarts.start
    obtain ⟨time, r, hhas, -, hindex⟩ := (cellIndex_iff hstarts.temporal hsound.wf).mp hcell
    refine ⟨hstarts.physical, hstarts.entityPath, range, hrange, ?_⟩
    rw [hindex]
    exact (componentRange_min_le hsound.wf hrange hhas).1
  have hunit' : unit.chunk.latestUnit ⟨some timeline, (ofLex index₀).1⟩ component = some (index₀, unit) :=
    (latestUnit_congr (hsame _ hstarts' h.asked)).symm.trans hunit
  have hwindow : st.catalog.InWindow e timeline component (ofLex index₀).1 unit.chunk.id := by
    obtain ⟨range, hrange, hmin⟩ := hstarts'.start
    obtain ⟨u, hu, hut, hall'⟩ := h.asked.inWindow
    obtain ⟨-, range', hrange', hmin'⟩ := startsBy_of_listed hv hstarts.physical hu hut
    obtain rfl := mem_unique hrange hrange'
    exact ⟨u, hu, hmin' ▸ hmin, fun id' u' hu' hut' => hall' id' u' hu' (hut'.trans hle')⟩
  refine ⟨fun id hid => hloaded id (hback id hid), ⟨hstarts.physical, hwindow⟩, index₀, hunit',
    fun c index' unit' hc hc' => ?_⟩
  refine hall c index' unit' (hasked c hc) ?_
  exact (latestUnit_congr (hsame c (hc.startsBy hv) (hasked c hc))).trans hc'

end ChunkStore

end Dalaran
