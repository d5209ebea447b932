import Dalaran.Query.Coherence

/-
  Tombstones in latest-at queries.

  A query walks from its entity up to the root, selects the latest tombstone of each
  path that has one, and drops the rows at or below the greatest index that counts:
  of any tombstone on the entity itself, of a recursive one on an ancestor. A
  recursive one with a later flat one on top of it is lost, and a row at the
  smallest temporal index is dropped without any tombstone. `cacheRun_clears` says
  that this is all, where nothing is missing.

  Correspondence (Rust ↔ Lean):
    `Clear` components in the store ↔ `Logged`, at `clearIsRecursive`
    "at or above the index", `compare_indices` ↔ `AtOrAbove`
    the loop over `clear_entity_path` ↔ `foldlM_searchClear`
    the loop over `components` ↔ `foldlM_queryComponent`
-/

namespace Dalaran

open List Chunk QueryCache TimeInt

/-! ## The order of indices -/

/-- Static indices come after temporal ones. -/
def indexRank (index : TimeInt ×ₗ RowId) : Bool ×ₗ (TimeInt ×ₗ RowId) :=
  toLex (decide ((ofLex index).1 = TimeInt.STATIC), index)

variable {lhs rhs index : TimeInt ×ₗ RowId}

theorem indexRank_injective (h : indexRank lhs = indexRank rhs) : lhs = rhs :=
  congrArg Prod.snd (toLex.injective h)

theorem indexRank_le_iff_of_iff (h : (ofLex lhs).1 = TimeInt.STATIC ↔ (ofLex rhs).1 = TimeInt.STATIC) :
    indexRank lhs ≤ indexRank rhs ↔ lhs ≤ rhs := by
  have hsame : decide ((ofLex lhs).1 = STATIC) = decide ((ofLex rhs).1 = STATIC) :=
    decide_eq_decide.mpr h
  unfold indexRank
  rw [Prod.Lex.toLex_le_toLex, hsame]
  simp

theorem compareIndices_eq_gt_iff : compareIndices lhs rhs = .gt ↔ indexRank rhs < indexRank lhs := by
  unfold compareIndices indexRank
  rw [Prod.Lex.toLex_lt_toLex]
  by_cases hl : (ofLex lhs).1 = STATIC <;> by_cases hr : (ofLex rhs).1 = STATIC
  · rw [if_pos ⟨hl, hr⟩, compare_gt_iff_gt, decide_eq_true hl, decide_eq_true hr]
    have hlt : rhs < lhs ↔ (ofLex rhs).2 < (ofLex lhs).2 := by
      rw [Prod.Lex.lt_iff, hl, hr]
      simp
    rw [hlt]
    simp
  · rw [if_neg (fun h => hr h.2), if_neg hr, if_pos hl, decide_eq_true hl, decide_eq_false hr]
    simp
  · rw [if_neg (fun h => hl h.1), if_pos hr, decide_eq_false hl, decide_eq_true hr]
    simp
  · rw [if_neg (fun h => hl h.1), if_neg hr, if_neg hl, compare_gt_iff_gt, decide_eq_false hl, decide_eq_false hr]
    simp

theorem indexRank_le_of_static (hl : (ofLex lhs).1 ≠ TimeInt.STATIC) (hr : (ofLex rhs).1 = TimeInt.STATIC) :
    indexRank lhs ≤ indexRank rhs := by
  unfold indexRank
  rw [Prod.Lex.toLex_le_toLex, decide_eq_false hl, decide_eq_true hr]
  simp

theorem ne_static_of_MIN_le (h : TimeInt.MIN ≤ (ofLex index).1) : (ofLex index).1 ≠ TimeInt.STATIC := by
  intro hstatic
  rw [hstatic] at h
  exact absurd h (by decide)

theorem firstIndex_le (h : TimeInt.MIN ≤ (ofLex index).1) : firstIndex ≤ index :=
  Prod.Lex.le_iff.mpr (h.lt_or_eq.imp_right fun heq => ⟨heq, Fin.zero_le _⟩)

theorem eq_firstIndex_of_rank_le (htime : TimeInt.MIN ≤ (ofLex index).1 ∨ (ofLex index).1 = TimeInt.STATIC)
    (h : indexRank index ≤ indexRank firstIndex) : index = firstIndex := by
  have hfirst : (ofLex firstIndex).1 ≠ STATIC := ne_static_of_MIN_le le_rfl
  rcases htime with htime | hstatic
  · have hiff := iff_of_false (ne_static_of_MIN_le htime) hfirst
    exact le_antisymm ((indexRank_le_iff_of_iff hiff).mp h) (firstIndex_le htime)
  · exact absurd (h.antisymm (indexRank_le_of_static hfirst hstatic)) fun heq =>
      hfirst (indexRank_injective heq ▸ hstatic)

/-! ## Tombstones -/

namespace ChunkStore

variable {st : ChunkStore} {query : LatestAtQuery} {e p : EntityPath} {component : ComponentIdentifier}
  {unit : UnitChunkShared} {mode : ChunkTrackingMode} {isRecursive : Cell → Bool} {cell : Cell}

def Logged (st : ChunkStore) (query : LatestAtQuery) (e : EntityPath) (component : ComponentIdentifier)
    (index : TimeInt ×ₗ RowId) (cell : Cell) : Prop :=
  ∃ c i, st.physical c.id = some c ∧ c.entityPath = e ∧ c.CellIndex query.timeline component i index ∧
    c.cellAt i component = some cell ∧ (ofLex index).1 ≤ query.at_

def AtOrAbove (index below : TimeInt ×ₗ RowId) : Prop := compareIndices below index ≠ .gt

theorem atOrAbove_iff : AtOrAbove rhs lhs ↔ indexRank lhs ≤ indexRank rhs := by
  unfold AtOrAbove
  rw [ne_eq, compareIndices_eq_gt_iff, not_lt]

/-- A tombstone hides an index: any on the entity itself, a recursive one on an ancestor. -/
def Hidden (isRecursive : Cell → Bool) (st : ChunkStore) (query : LatestAtQuery) (e : EntityPath)
    (index : TimeInt ×ₗ RowId) : Prop :=
  ∃ p ∈ e.selfAndAncestors, ∃ clear cell, st.Logged query p clearIsRecursive clear cell ∧
    (p = e ∨ isRecursive cell = true) ∧ AtOrAbove clear index

/-- A query about a component finds every chunk it asks for, and reaches every row; the static chunk
that the component points at holds the greatest static cell. -/
structure Complete (st : ChunkStore) (query : LatestAtQuery) (e : EntityPath)
    (component : ComponentIdentifier) : Prop where
  loaded : ∀ id ∈ st.askedIds query e component, st.IsPhysical id
  reaches : st.staticChunkIdsPerEntity.lookup (e, component) = none → ∀ timeline,
    query.timeline = some timeline → st.ReachesBack e timeline component query.at_
  pointed : ∀ id, st.staticChunkIdsPerEntity.lookup (e, component) = some id → ∀ c,
    st.physical id = some c → ∃ i index, c.CellIndex query.timeline component i index
  static : ∀ c i index, st.physical c.id = some c → c.entityPath = e → c.isStatic = true →
    c.CellIndex query.timeline component i index → ∃ id d j index',
      st.staticChunkIdsPerEntity.lookup (e, component) = some id ∧ st.physical id = some d ∧
        d.CellIndex query.timeline component j index' ∧ index ≤ index'

theorem Complete.answerable (h : st.Complete query e component) : st.Answerable mode query e component :=
  ⟨fun _ => h.loaded, fun hnone timeline htimeline _ => h.reaches hnone timeline htimeline⟩

theorem unitIndex_time {c : Chunk} {timeline : Option TimelineName} {i : Nat}
    (h : c.unitIndex timeline i = some index) :
    (c.isStatic = true ∧ (ofLex index).1 = TimeInt.STATIC) ∨
      (c.isStatic = false ∧ ∃ name, timeline = some name ∧ TimeInt.MIN ≤ (ofLex index).1) := by
  cases hstatic : c.isStatic with
  | true =>
    unfold Chunk.unitIndex at h
    rw [if_pos hstatic] at h
    obtain ⟨rowId, -, rfl⟩ := Option.map_eq_some_iff.mp h
    exact .inl ⟨rfl, rfl⟩
  | false =>
    cases timeline with
    | none =>
      unfold Chunk.unitIndex at h
      rw [hstatic] at h
      cases h
    | some name =>
      obtain ⟨time, r, -, -, rfl⟩ := (unitIndex_eq_some_iff hstatic).mp h
      exact .inr ⟨rfl, name, rfl, MIN_le_newTemporal time⟩

/-! ## The selected tombstone -/

theorem Complete.asked_of_cell (hv : st.catalog.Filed) {timeline : TimelineName} {t : TimeInt}
    (h : st.Complete ⟨some timeline, t⟩ e component)
    (hnone : st.staticChunkIdsPerEntity.lookup (e, component) = none) {c : Chunk} {i : Nat}
    (hc : st.physical c.id = some c) (he : c.entityPath = e) (hstatic : c.isStatic = false)
    (hi : c.CellIndex (some timeline) component i index) (hle : (ofLex index).1 ≤ t) :
    index ≤ firstIndex ∨ ∃ d index' unit, st.Asked e timeline component t d ∧
      d.latestUnit ⟨some timeline, t⟩ component = some (index', unit) ∧ index ≤ index' := by
  have hsound := hv.sound.chunk _ _ hc
  obtain ⟨time, r, hcell, -, rfl⟩ := (cellIndex_iff hstatic hsound.wf).mp hi
  obtain ⟨lo, hi', hrange, -, -, hall⟩ := componentRange_tight hsound.wf hcell
  have hstart : (⟨lo⟩ : TimeInt) ≤ t := (hall i time hcell).1.trans hle
  have hstarts : st.StartsBy e timeline component t c := ⟨hc, he, _, hrange, hstart⟩
  have hselects := hstarts.selects hv
  cases hunit : c.latestUnit ⟨some timeline, t⟩ component with
  | none => exact .inl (hselects.no_unit hunit hi hle)
  | some answer =>
    obtain ⟨index', unit⟩ := answer
    have hgreatest := (hselects.greatest hunit).2.2 i _ hi hle
    by_cases hin : st.catalog.InWindow e timeline component t c.id
    · exact .inr ⟨c, index', unit, ⟨hc, hin⟩, hunit, hgreatest⟩
    · rcases h.reaches hnone timeline rfl with hlength | hevery
      · have hloaded : st.LoadedAt e timeline component t := fun id hid =>
          h.loaded id (mem_askedIds.mpr (by
            unfold AsksFor
            rw [hnone]
            exact ⟨timeline, rfl, hid⟩))
        obtain ⟨d, index₁, unit₁, hd, hdunit, hlt⟩ :=
          exists_greater_in_window hv hloaded hlength hstarts hin hunit
        exact .inr ⟨d, index₁, unit₁, hd, hdunit, hgreatest.trans hlt.le⟩
      · exact absurd (hevery c.id _ (hstarts.listed hv hrange) hstart) hin

theorem selectedUnit_index (h : st.selectedUnit query e component = some (index, unit)) :
    unit.index query.timeline = some index := by
  obtain ⟨c, -, hunit⟩ := mem_filterMap.mp (Seq.maxByKey_mem h)
  obtain ⟨hchunk, -, hindex⟩ := latestUnit_eq_some_iff.mp hunit
  unfold UnitChunkShared.index
  rw [hchunk]
  exact hindex

theorem logged_of_latestUnit {c : Chunk} (hc : st.physical c.id = some c) (he : c.entityPath = e)
    (hselects : c.Selects query component (c.latestAt query component))
    (hunit : c.latestUnit query component = some (index, unit)) :
    unit.index query.timeline = some index ∧
      ∃ cell, unit.cell component = some cell ∧ st.Logged query e component index cell := by
  obtain ⟨hchunk, hrow, hindex⟩ := latestUnit_eq_some_iff.mp hunit
  obtain ⟨hcell, hle, -⟩ := hselects.greatest hunit
  obtain ⟨cell, hsome⟩ := Option.isSome_iff_exists.mp hcell.1
  subst hchunk
  exact ⟨hindex, cell, hsome, unit.chunk, unit.row, hc, he, hcell, hsome, hle⟩

theorem Complete.selected_static (hv : st.WellFiled) (h : st.Complete query e component) {id : ChunkId}
    (hid : st.staticChunkIdsPerEntity.lookup (e, component) = some id) :
    ∃ index unit, st.selectedUnit query e component = some (index, unit) ∧ unit.index query.timeline = some index ∧
      (∃ cell, unit.cell component = some cell ∧ st.Logged query e component index cell) ∧
      ∀ index' cell, st.Logged query e component index' cell → indexRank index' ≤ indexRank index := by
  have hmem : id ∈ st.askedIds query e component := mem_askedIds.mpr (by
    unfold AsksFor
    rw [hid])
  obtain ⟨d, hd⟩ := Option.isSome_iff_exists.mp (h.loaded id hmem)
  have hd' : st.physical id = some d := hd
  have hserves := hv.served e component id d hid hd'
  have hsound := hv.filed.sound.chunk id d hd'
  have hdid : d.id = id := hv.filed.sound.id_eq id d hd'
  obtain ⟨hselects, hcells⟩ := @Chunk.latestAt_selects_static _ component hsound hserves.static query
  -- the chunk has a cell, so it has a unit
  obtain ⟨i, index₀, hi⟩ := h.pointed id hid d hd'
  obtain ⟨row, hrow⟩ : ∃ row, d.latestAt query component = some row := by
    by_contra hnone
    have hcell := hi.1
    rw [hcells (by simpa [Option.eq_none_iff_forall_ne_some] using hnone) i] at hcell
    cases hcell
  obtain ⟨index, hindex, -⟩ := hselects.selected row hrow
  have hunit : d.latestUnit query component = some (index, ⟨d, row⟩) :=
    latestUnit_eq_some_iff.mpr ⟨rfl, hrow, hindex.2⟩
  have hstatic : (ofLex index).1 = STATIC := by
    rcases unitIndex_time hindex.2 with hyes | hno
    · exact hyes.2
    · exact absurd (hserves.static.symm.trans hno.1) (by decide)
  obtain ⟨hlogged, hcell⟩ := logged_of_latestUnit (hdid.symm ▸ hd') hserves.entityPath hselects hunit
  refine ⟨index, ⟨d, row⟩, ?_, hlogged, hcell, fun index' cell hlogged' => ?_⟩
  · unfold selectedUnit askedIds
    rw [hid]
    rw [filterMap_cons_some hd', filterMap_nil, filterMap_cons_some hunit, filterMap_nil]
    rfl
  · obtain ⟨c, j, hc, he, hj, -, -⟩ := hlogged'
    rcases unitIndex_time hj.2 with ⟨hcstatic, htime⟩ | ⟨-, -, -, htime⟩
    · obtain ⟨id', d', k, index₁, hid', hd₁, hk, hle⟩ := h.static c j index' hc he hcstatic hj
      obtain rfl := Option.mem_unique hid hid'
      obtain rfl := Option.mem_unique hd' hd₁
      have hstatic₁ : (ofLex index₁).1 ≤ query.at_ := by
        rcases unitIndex_time hk.2 with hyes | hno
        · rw [hyes.2]
          exact I64.MIN_le _
        · exact absurd (hserves.static.symm.trans hno.1) (by decide)
      have hgreatest := (hselects.greatest hunit).2.2 k index₁ hk hstatic₁
      exact (indexRank_le_iff_of_iff (iff_of_true htime hstatic)).mpr (hle.trans hgreatest)
    · exact indexRank_le_of_static (ne_static_of_MIN_le htime) hstatic

theorem Complete.selected (hv : st.WellFiled) (h : st.Complete query e component) :
    (∀ index unit, st.selectedUnit query e component = some (index, unit) → unit.index query.timeline = some index ∧
      (∃ cell, unit.cell component = some cell ∧ st.Logged query e component index cell) ∧
      ∀ index' cell, st.Logged query e component index' cell → indexRank index' ≤ indexRank index) ∧
    (st.selectedUnit query e component = none →
      ∀ index' cell, st.Logged query e component index' cell → indexRank index' ≤ indexRank firstIndex) := by
  cases hid : st.staticChunkIdsPerEntity.lookup (e, component) with
  | some id =>
    obtain ⟨index₀, unit₀, hselected, hunit⟩ := h.selected_static hv hid
    refine ⟨fun index unit hsome => ?_, fun hnone => ?_⟩
    · obtain ⟨rfl, rfl⟩ := Prod.mk.inj (Option.mem_unique hselected hsome)
      exact hunit
    · rw [hselected] at hnone
      cases hnone
  | none =>
    obtain ⟨queryTimeline, t⟩ := query
    -- every logged cell is temporal
    have htemporal : ∀ {index' cell}, st.Logged ⟨queryTimeline, t⟩ e component index' cell →
        ∃ c i timeline, st.physical c.id = some c ∧ c.entityPath = e ∧ c.isStatic = false ∧
          queryTimeline = some timeline ∧ c.CellIndex (some timeline) component i index' ∧
          MIN ≤ (ofLex index').1 ∧ (ofLex index').1 ≤ t := by
      intro index' cell hlogged
      obtain ⟨c, i, hc, he, hi, -, hle⟩ := hlogged
      rcases unitIndex_time hi.2 with ⟨hstatic, -⟩ | ⟨hstatic, timeline, htimeline, htime⟩
      · obtain ⟨id, -, -, -, hid', -⟩ := h.static c i index' hc he hstatic hi
        rw [hid] at hid'
        cases hid'
      · obtain rfl : queryTimeline = some timeline := htimeline
        exact ⟨c, i, timeline, hc, he, hstatic, rfl, hi, htime, hle⟩
    have hselectedUnit : st.selectedUnit ⟨queryTimeline, t⟩ e component =
        st.walkUnit ⟨queryTimeline, t⟩ e component := by
      unfold selectedUnit askedIds
      rw [hid]
      rfl
    have hfirst : (ofLex firstIndex).1 ≠ STATIC := ne_static_of_MIN_le le_rfl
    rw [hselectedUnit]
    refine ⟨fun index unit hsome => ?_, fun hnone index' cell hlogged => ?_⟩
    · cases queryTimeline with
      | none => cases hsome
      | some timeline =>
        obtain ⟨hanswers, hunit⟩ := (walkUnit_eq_some_iff hv.filed).mp hsome
        have hstarts := hanswers.asked.startsBy hv.filed
        obtain ⟨hlogged, hcell⟩ := logged_of_latestUnit hstarts.physical hstarts.entityPath
          (hstarts.selects hv.filed) hunit
        have htime := ((hstarts.selects hv.filed).greatest hunit).1.MIN_le hstarts.temporal
        refine ⟨hlogged, hcell, fun index' cell hlogged' => ?_⟩
        obtain ⟨c, i, timeline', hc, he, hstatic, htimeline', hi, htime', hle⟩ := htemporal hlogged'
        cases htimeline'
        refine (indexRank_le_iff_of_iff (iff_of_false (ne_static_of_MIN_le htime')
          (ne_static_of_MIN_le htime))).mpr ?_
        rcases h.asked_of_cell hv.filed hid hc he hstatic hi hle with hle' | ⟨d, index₁, unit₁, hd, hdunit, hle'⟩
        · exact hle'.trans (firstIndex_le htime)
        · obtain ⟨index₀, hunit₀, hall⟩ := hanswers.greatest
          obtain rfl : index₀ = index := congrArg Prod.fst (Option.mem_unique hunit₀ hunit)
          exact hle'.trans (index_le_of_rank_le (hall d index₁ unit₁ hd hdunit))
    · obtain ⟨c, i, timeline, hc, he, hstatic, rfl, hi, htime, hle⟩ := htemporal hlogged
      refine (indexRank_le_iff_of_iff (iff_of_false (ne_static_of_MIN_le htime) hfirst)).mpr ?_
      rcases h.asked_of_cell hv.filed hid hc he hstatic hi hle with hle' | ⟨d, index₁, unit₁, hd, hdunit, -⟩
      · exact hle'
      · rw [latestUnit_of_walkUnit_eq_none hv.filed hnone hd] at hdunit
        cases hdunit

end ChunkStore

/-! ## Where tombstones may be -/

namespace QueryCache

open ChunkStore

variable {st st' : ChunkStore} {cache : QueryCache} {query : LatestAtQuery} {mode : ChunkTrackingMode}
  {e p : EntityPath} {component : ComponentIdentifier} {diffs : List ChunkStoreDiff}
  {isRecursive : Cell → Bool} {unit : UnitChunkShared} {maxIndex : TimeInt ×ₗ RowId}

/-- The cache knows every entity with a tombstone. -/
def KnowsClears (st : ChunkStore) (cache : QueryCache) : Prop :=
  ∀ c timeline i index, st.physical c.id = some c → c.CellIndex timeline clearIsRecursive i index →
    c.entityPath ∈ cache.mightRequireClearing

theorem mem_foldl_insert : ∀ {l s : List EntityPath} {e : EntityPath},
    e ∈ l.foldl (fun s e => s.insert e) s ↔ e ∈ s ∨ e ∈ l
  | [], s, e => by simp
  | x :: l, s, e => by
    rw [foldl_cons, mem_foldl_insert, mem_insert_iff, mem_cons]
    tauto

theorem mem_onEvents (h : e ∈ cache.mightRequireClearing ∨ TouchesStatic diffs (e, clearIsRecursive) ∨
    ∃ timeline t, TouchesAt diffs (e, timeline, clearIsRecursive) t) :
    e ∈ (cache.onEvents diffs).mightRequireClearing := by
  unfold onEvents
  rw [mem_foldl_insert, mem_append]
  rcases h with hold | ⟨diff, hdiff, hkey⟩ | ⟨timeline, t, htouched⟩
  · exact .inl hold
  · refine .inr (.inl (mem_map.mpr ⟨(e, clearIsRecursive), mem_filter.mpr ⟨?_, ?_⟩, rfl⟩))
    · exact mem_flatMap.mpr ⟨diff, hdiff, hkey⟩
    · exact decide_eq_true rfl
  · obtain ⟨m, hm, -⟩ := temporalLatestAt_le htouched
    exact .inr (.inr (mem_map.mpr ⟨_, mem_filter.mpr ⟨Assoc.mem_toList.mpr hm, decide_eq_true rfl⟩, rfl⟩))

variable {index : TimeInt ×ₗ RowId}

theorem mem_onEvents_of_accountsFor {c : Chunk} (hwf : c.WellFormed) (h : AccountsFor True diffs c)
    {timeline : Option TimelineName} {i : Nat} (hi : c.CellIndex timeline clearIsRecursive i index) :
    c.entityPath ∈ (cache.onEvents diffs).mightRequireClearing := by
  apply mem_onEvents
  rcases unitIndex_time hi.2 with ⟨hstatic, -⟩ | ⟨hstatic, name, rfl, -⟩
  · obtain ⟨column, hcol, -⟩ := cellAt_isSome_iff.mp hi.1
    exact .inr (.inl (h.static hstatic _ (by rw [hcol]; rfl)))
  · obtain ⟨t, r, hcell, -, -⟩ := (cellIndex_iff hstatic hwf).mp hi
    obtain ⟨lo, hi', hrange, -⟩ := componentRange_tight hwf hcell
    exact .inr (.inr ⟨name, _, h.temporal trivial name _ _ hrange⟩)

theorem KnowsClears.onEvents {keeps : Prop} (hv : st'.catalog.Sound) (hcovers : Covers keeps st diffs st')
    (h : cache.KnowsClears st) : (cache.onEvents diffs).KnowsClears st' := by
  intro c timeline i index hc hi
  by_cases hold : st.physical c.id = some c
  · exact mem_onEvents (.inl (h c timeline i index hold hi))
  · exact mem_onEvents_of_accountsFor (hv.chunk _ _ hc).wf (hcovers.came c.id c hc hold) hi

/-! ## The search -/

theorem CurrentAt.selects (hv : st.WellFiled) (h : cache.CurrentAt st ⟨e, query.timeline, component⟩)
    (hquery : st.Answerable mode query e component)
    (hloaded : ∀ id ∈ st.askedIds query e component, st.IsPhysical id) :
    ∃ cache', cache.latestAtComponent mode st query e component =
      some (cache', (st.selectedUnit query e component).map fun selected => selected.2, []) := by
  have hfresh : (LatestAtCache.new.latestAt mode st query e component).map (fun answer => answer.2) =
      some ((st.selectedUnit query e component).map fun selected => selected.2, []) := by
    have hnew : LatestAtCache.new.perQueryTime.lookup query.at_ = none := rfl
    unfold LatestAtCache.latestAt
    rw [hnew, latestAtRelevantChunks_eq, fromChunkIds_of_loaded hloaded]
    simp only [Option.map_some, ne_eq, not_true_eq_false, if_false]
    unfold selectedUnit
    split
    · rename_i hselected
      rw [hselected]
      rfl
    · rename_i hselected
      rw [hselected]
      rfl
  rw [← h.coherent hv hquery] at hfresh
  obtain ⟨answer, hanswer, heq⟩ := Option.map_eq_some_iff.mp hfresh
  exact ⟨answer.1, by rw [hanswer, ← heq]⟩

theorem latestAtComponent_mightRequireClearing {answer : QueryCache × Option UnitChunkShared × List ChunkId}
    (h : cache.latestAtComponent mode st query e component = some answer) :
    answer.1.mightRequireClearing = cache.mightRequireClearing := by
  obtain ⟨result, -, rfl⟩ := Option.map_eq_some_iff.mp h
  rfl

/-- The tombstone that a query selects on a path counts, and is not below an index. -/
def Finds (isRecursive : Cell → Bool) (st : ChunkStore) (query : LatestAtQuery) (e p : EntityPath)
    (index : TimeInt ×ₗ RowId) : Prop :=
  ∃ clear unit, st.selectedUnit query p clearIsRecursive = some (clear, unit) ∧
    (p = e ∨ (unit.cell clearIsRecursive).any isRecursive = true) ∧ indexRank index ≤ indexRank clear

theorem searchClear_spec (hv : st.WellFiled) {search : ClearSearch} {potentialClears : List EntityPath}
    (hcache : search.cache.Current st) (hp : p ∈ potentialClears →
      st.Answerable mode query p clearIsRecursive ∧ ∀ id ∈ st.askedIds query p clearIsRecursive, st.IsPhysical id) :
    ∃ search', searchClear isRecursive mode st query e potentialClears search p = some search' ∧
      search'.cache.Current st ∧ search'.missingVirtual = search.missingVirtual ∧
      ∀ index, indexRank index ≤ indexRank search'.maxClearIndex ↔
        indexRank index ≤ indexRank search.maxClearIndex ∨
          p ∈ potentialClears ∧ Finds isRecursive st query e p index := by
  unfold searchClear
  by_cases hknown : p ∈ potentialClears
  · rw [if_neg (not_not.mpr hknown)]
    obtain ⟨hquery, hloaded⟩ := hp hknown
    obtain ⟨cache', hanswer⟩ := @CurrentAt.selects st search.cache query mode p clearIsRecursive hv (hcache _)
      hquery hloaded
    have hcurrent : cache'.Current st := fun key => (hcache key).answered hv (fun _ => hquery) hanswer
    rw [hanswer, Option.map_some]
    refine ⟨_, rfl, ?_⟩
    unfold Finds
    cases hselected : st.selectedUnit query p clearIsRecursive with
    | none =>
      refine ⟨hcurrent, rfl, fun index => ⟨.inl, fun h => h.resolve_right fun hfound => ?_⟩⟩
      obtain ⟨-, clear, unit, hnone, -⟩ := hfound
      cases hnone
    | some selected =>
      obtain ⟨clear, unit⟩ := selected
      have hindex := selectedUnit_index hselected
      dsimp only [Option.map_some]
      rw [hindex]
      dsimp only
      have hfinds : ∀ index, (p ∈ potentialClears ∧ ∃ clear' unit', some (clear, unit) = some (clear', unit') ∧
          (p = e ∨ (unit'.cell clearIsRecursive).any isRecursive = true) ∧ indexRank index ≤ indexRank clear') ↔
          (p = e ∨ (unit.cell clearIsRecursive).any isRecursive = true) ∧ indexRank index ≤ indexRank clear := by
        intro index
        constructor
        · intro ⟨_, clear', unit', heq, hrest⟩
          obtain ⟨rfl, rfl⟩ := Prod.mk.inj (Option.some.inj heq)
          exact hrest
        · intro hrest
          exact ⟨hknown, clear, unit, rfl, hrest⟩
      split
      · rename_i hraises
        rw [compareIndices_eq_gt_iff] at hraises
        refine ⟨hcurrent, rfl, fun index => ?_⟩
        rw [hfinds]
        exact ⟨fun h => .inr ⟨hraises.1, h⟩, fun h => h.elim (·.trans hraises.2.le) (·.2)⟩
      · rename_i hstays
        rw [compareIndices_eq_gt_iff] at hstays
        refine ⟨hcurrent, rfl, fun index => ?_⟩
        rw [hfinds]
        refine ⟨.inl, fun h => h.elim id fun ⟨hcounts, hle⟩ => ?_⟩
        exact hle.trans (not_lt.mp fun hlt => hstays ⟨hcounts, hlt⟩)
  · rw [if_pos hknown]
    exact ⟨search, rfl, hcache, rfl, fun index => ⟨.inl, fun h => h.resolve_right fun hfound => hknown hfound.1⟩⟩

theorem foldlM_searchClear (hv : st.WellFiled) {potentialClears : List EntityPath} :
    ∀ (paths : List EntityPath) (search : ClearSearch), search.cache.Current st →
      (∀ p ∈ paths, p ∈ potentialClears → st.Answerable mode query p clearIsRecursive ∧
        ∀ id ∈ st.askedIds query p clearIsRecursive, st.IsPhysical id) →
      ∃ search', paths.foldlM (searchClear isRecursive mode st query e potentialClears) search = some search' ∧
        search'.cache.Current st ∧ search'.missingVirtual = search.missingVirtual ∧
        ∀ index, indexRank index ≤ indexRank search'.maxClearIndex ↔
          indexRank index ≤ indexRank search.maxClearIndex ∨
            ∃ p ∈ paths, p ∈ potentialClears ∧ Finds isRecursive st query e p index
  | [], search, hcache, _ => ⟨search, rfl, hcache, rfl, fun index => by simp⟩
  | p :: paths, search, hcache, hloaded => by
    obtain ⟨search₁, hstep, hcache₁, hmissing₁, hiff₁⟩ := @searchClear_spec st query mode e p isRecursive hv
      search potentialClears hcache (hloaded p mem_cons_self)
    obtain ⟨search', hrest, hcache', hmissing', hiff'⟩ := foldlM_searchClear hv paths search₁ hcache₁
      fun q hq => hloaded q (mem_cons_of_mem p hq)
    refine ⟨search', ?_, hcache', hmissing'.trans hmissing₁, fun index => ?_⟩
    · rw [foldlM_cons, hstep]
      exact hrest
    · rw [hiff', hiff₁, or_assoc]
      simp

/-! ## The components -/

theorem queryComponent_spec (hv : st.WellFiled) {acc out : QueryCache × LatestAtResults} {other : ComponentIdentifier}
    (hcomponent : component ≠ clearIsRecursive) (hcache : acc.1.CurrentAt st ⟨e, query.timeline, component⟩)
    (hquery : st.Answerable mode query e component) (hloaded : ∀ id ∈ st.askedIds query e component, st.IsPhysical id)
    (hlatest : st.selectedUnit query e component = some (index, unit))
    (hindex : unit.index query.timeline = some index)
    (h : queryComponent mode st query e maxIndex acc other = some out) :
    out.1.CurrentAt st ⟨e, query.timeline, component⟩ ∧
      ((other = component ∧ compareIndices index maxIndex = .gt → out.2.components.lookup component = some unit) ∧
        (¬ (other = component ∧ compareIndices index maxIndex = .gt) →
          out.2.components.lookup component = acc.2.components.lookup component)) := by
  obtain ⟨answer, hanswer, hout⟩ := Option.map_eq_some_iff.mp h
  have hcurrent := hcache.answered hv (fun heq => (QueryCacheKey.mk.inj heq).2.2 ▸ hquery) hanswer
  by_cases hsame : other = component
  · subst hsame
    obtain ⟨cache', hselected⟩ := hcache.selects hv hquery hloaded
    rw [hlatest] at hselected
    obtain rfl := Option.mem_unique hanswer hselected
    dsimp only [Option.map_some] at hout
    rw [hindex] at hout
    dsimp only at hout
    rw [← hout]
    by_cases hgt : compareIndices index maxIndex = .gt
    · rw [if_pos (.inr hgt)]
      refine ⟨hcurrent, fun _ => ?_, fun hnot => absurd ⟨rfl, hgt⟩ hnot⟩
      exact AList.lookup_insert _
    · rw [if_neg (not_or.mpr ⟨hcomponent, hgt⟩)]
      exact ⟨hcurrent, fun hyes => absurd hyes.2 hgt, fun _ => rfl⟩
  · obtain ⟨answer', hanswer', hcache', hcases⟩ := queryComponent_cases h
    obtain rfl := Option.mem_unique hanswer hanswer'
    refine ⟨hcache' ▸ hcurrent, fun hyes => absurd hyes.1 hsame, fun _ => ?_⟩
    rcases hcases with heq | ⟨other', _, _, _, _, heq⟩
    · rw [heq]
    · rw [heq]
      exact AList.lookup_insert_ne (Ne.symm hsame)

theorem foldlM_queryComponent (hv : st.WellFiled) (hcomponent : component ≠ clearIsRecursive)
    (hquery : st.Answerable mode query e component) (hloaded : ∀ id ∈ st.askedIds query e component, st.IsPhysical id)
    (hlatest : st.selectedUnit query e component = some (index, unit))
    (hindex : unit.index query.timeline = some index) :
    ∀ (components : List ComponentIdentifier) (acc out : QueryCache × LatestAtResults),
      acc.1.CurrentAt st ⟨e, query.timeline, component⟩ →
      components.foldlM (queryComponent mode st query e maxIndex) acc = some out →
      (component ∈ components ∧ compareIndices index maxIndex = .gt →
          out.2.components.lookup component = some unit) ∧
        (¬ (component ∈ components ∧ compareIndices index maxIndex = .gt) →
          out.2.components.lookup component = acc.2.components.lookup component)
  | [], acc, out, _, h => by
    cases h
    exact ⟨fun hyes => absurd hyes.1 not_mem_nil, fun _ => rfl⟩
  | other :: components, acc, out, hcache, h => by
    rw [foldlM_cons] at h
    obtain ⟨mid, hmid, hrest⟩ := Option.bind_eq_some_iff.mp h
    obtain ⟨hcurrent, hyes, hno⟩ := queryComponent_spec hv hcomponent hcache hquery hloaded hlatest hindex hmid
    obtain ⟨hyes', hno'⟩ := foldlM_queryComponent hv hcomponent hquery hloaded hlatest hindex components mid out
      hcurrent hrest
    refine ⟨fun ⟨hmem, hgt⟩ => ?_, fun hnot => ?_⟩
    · by_cases hlater : component ∈ components
      · exact hyes' ⟨hlater, hgt⟩
      · rw [hno' fun h => hlater h.1]
        exact hyes ⟨((mem_cons.mp hmem).resolve_right hlater).symm, hgt⟩
    · rw [hno' fun h => hnot ⟨mem_cons_of_mem other h.1, h.2⟩]
      exact hno fun h => hnot ⟨h.1 ▸ mem_cons_self, h.2⟩

theorem latestAtComponent_isSome (hmode : mode ≠ .panicOnMissing) :
    (cache.latestAtComponent mode st query e component).isSome = true := by
  have hresults : (st.latestAtRelevantChunks mode query e component).isSome = true := by
    rw [latestAtRelevantChunks_eq]
    unfold QueryResults.fromChunkIds
    rw [if_neg fun h => hmode h.1]
    rfl
  unfold latestAtComponent
  rw [Option.isSome_map]
  unfold LatestAtCache.latestAt
  split
  · rfl
  · rw [Option.isSome_map]
    exact hresults

theorem foldlM_isSome {α β : Type} {f : β → α → Option β} (hf : ∀ b a, (f b a).isSome = true) :
    ∀ (l : List α) (b : β), (l.foldlM f b).isSome = true
  | [], _ => rfl
  | a :: l, b => by
    obtain ⟨b', hb'⟩ := Option.isSome_iff_exists.mp (hf b a)
    rw [foldlM_cons, hb']
    exact foldlM_isSome hf l b'

theorem latestAt_isSome (hmode : mode ≠ .panicOnMissing) {components : List ComponentIdentifier} :
    (cache.latestAt isRecursive mode st query e components).isSome = true := by
  have hsearch : ∀ potentialClears search path,
      (searchClear isRecursive mode st query e potentialClears search path).isSome = true := by
    intro potentialClears search path
    unfold searchClear
    split
    · rfl
    · rw [Option.isSome_map]
      exact latestAtComponent_isSome hmode
  have hcomponent : ∀ maxIndex acc other, (queryComponent mode st query e maxIndex acc other).isSome = true := by
    intro maxIndex acc other
    unfold queryComponent
    rw [Option.isSome_map]
    exact latestAtComponent_isSome hmode
  unfold latestAt
  dsimp only
  split
  · exact foldlM_isSome (hcomponent _) _ _
  · obtain ⟨search, hsome⟩ := Option.isSome_iff_exists.mp (foldlM_isSome
      (hsearch cache.mightRequireClearing) e.selfAndAncestors ⟨cache, toLex (MIN, 0), []⟩)
    rw [hsome]
    exact foldlM_isSome (hcomponent _) _ _

end QueryCache

/-! ## What a query returns -/

namespace ChunkStore

variable {st : ChunkStore} {cache : QueryCache} {query : LatestAtQuery} {mode : ChunkTrackingMode}
  {e p : EntityPath} {component : ComponentIdentifier} {isRecursive : Cell → Bool}
  {unit : UnitChunkShared} {index clear : TimeInt ×ₗ RowId} {cell : Cell}

open QueryCache (Finds)

/-- A query finds something that is not below an index on the way up, or starts there. -/
def Covered (isRecursive : Cell → Bool) (st : ChunkStore) (query : LatestAtQuery) (e : EntityPath)
    (index : TimeInt ×ₗ RowId) : Prop :=
  indexRank index ≤ indexRank firstIndex ∨ ∃ p ∈ e.selfAndAncestors, Finds isRecursive st query e p index

/-- No row is at the first index without a tombstone, and where an ancestor has a recursive tombstone
for a row, some path has one that counts and that no flat one is on top of. -/
structure KeepsClears (isRecursive : Cell → Bool) (st : ChunkStore) (query : LatestAtQuery) (e : EntityPath)
    (index : TimeInt ×ₗ RowId) : Prop where
  first : index = firstIndex → st.Hidden isRecursive query e index
  recursive : index ≠ firstIndex → ∀ p ∈ e.selfAndAncestors, ∀ clear cell,
    st.Logged query p clearIsRecursive clear cell → isRecursive cell = true → AtOrAbove clear index →
      ∃ q ∈ e.selfAndAncestors, ∃ top cell', st.Logged query q clearIsRecursive top cell' ∧
        AtOrAbove top index ∧ (q = e ∨ isRecursive cell' = true ∧ ∀ flat cell'',
          st.Logged query q clearIsRecursive flat cell'' → isRecursive cell'' = false → ¬ AtOrAbove flat top)

/-- Two tombstones of an entity with one index are of one kind. -/
def OneKind (isRecursive : Cell → Bool) (st : ChunkStore) (query : LatestAtQuery) (e : EntityPath) : Prop :=
  ∀ p ∈ e.selfAndAncestors, ∀ clear cell cell', st.Logged query p clearIsRecursive clear cell →
    st.Logged query p clearIsRecursive clear cell' → isRecursive cell = isRecursive cell'

theorem hidden_of_finds (hv : st.WellFiled) (hp : p ∈ e.selfAndAncestors)
    (hcomplete : st.Complete query p clearIsRecursive) (h : Finds isRecursive st query e p index) :
    st.Hidden isRecursive query e index := by
  obtain ⟨clear, unit, hselected, hcounts, hle⟩ := h
  obtain ⟨-, ⟨cell, hcell, hlogged⟩, -⟩ := (hcomplete.selected hv).1 clear unit hselected
  rw [hcell] at hcounts
  exact ⟨p, hp, clear, cell, hlogged, hcounts, atOrAbove_iff.mpr hle⟩

theorem covered_of_logged (hv : st.WellFiled) (hp : p ∈ e.selfAndAncestors)
    (hcomplete : st.Complete query p clearIsRecursive) (hlogged : st.Logged query p clearIsRecursive clear cell)
    (habove : AtOrAbove clear index) (hcounts : p = e ∨ isRecursive cell = true ∧ ∀ flat cell',
      st.Logged query p clearIsRecursive flat cell' → isRecursive cell' = false → ¬ AtOrAbove flat clear) :
    st.Covered isRecursive query e index := by
  have hle := atOrAbove_iff.mp habove
  cases hselected : st.selectedUnit query p clearIsRecursive with
  | none => exact .inl (hle.trans ((hcomplete.selected hv).2 hselected clear cell hlogged))
  | some selected =>
    obtain ⟨top, unit⟩ := selected
    obtain ⟨-, ⟨cell', hcell', hlogged'⟩, hgreatest⟩ := (hcomplete.selected hv).1 top unit hselected
    have hbelow := hgreatest clear cell hlogged
    refine .inr ⟨p, hp, top, unit, hselected, ?_, hle.trans hbelow⟩
    rw [hcell', Option.any_some]
    refine hcounts.imp_right fun ⟨_, hflat⟩ => ?_
    by_contra hne
    exact hflat top cell' hlogged' (by simpa using hne) (atOrAbove_iff.mpr hbelow)

theorem KeepsClears.covered_iff (hv : st.WellFiled)
    (hcomplete : ∀ p ∈ e.selfAndAncestors, st.Complete query p clearIsRecursive)
    (htime : TimeInt.MIN ≤ (ofLex index).1 ∨ (ofLex index).1 = TimeInt.STATIC)
    (h : st.KeepsClears isRecursive query e index) :
    st.Covered isRecursive query e index ↔ st.Hidden isRecursive query e index := by
  constructor
  · intro hcovered
    rcases hcovered with hfirst | ⟨p, hp, hfinds⟩
    · exact h.first (eq_firstIndex_of_rank_le htime hfirst)
    · exact hidden_of_finds hv hp (hcomplete p hp) hfinds
  · intro ⟨p, hp, clear, cell, hlogged, hcounts, habove⟩
    by_cases hfirst : index = firstIndex
    · exact .inl (hfirst ▸ le_rfl)
    · rcases hcounts with heq | hrecursive
      · exact covered_of_logged hv hp (hcomplete p hp) hlogged habove (.inl heq)
      · obtain ⟨q, hq, top, cell', htop, habove', hcounts'⟩ :=
          h.recursive hfirst p hp clear cell hlogged hrecursive habove
        exact covered_of_logged hv hq (hcomplete q hq) htop habove' hcounts'

theorem keepsClears_of_covered_iff (hv : st.WellFiled)
    (hcomplete : ∀ p ∈ e.selfAndAncestors, st.Complete query p clearIsRecursive)
    (htime : TimeInt.MIN ≤ (ofLex index).1 ∨ (ofLex index).1 = TimeInt.STATIC)
    (hkind : st.OneKind isRecursive query e)
    (h : st.Covered isRecursive query e index ↔ st.Hidden isRecursive query e index) :
    st.KeepsClears isRecursive query e index := by
  refine ⟨fun hfirst => h.mp (.inl (hfirst ▸ le_rfl)), fun hne p hp clear cell hlogged hrecursive habove => ?_⟩
  rcases h.mpr ⟨p, hp, clear, cell, hlogged, .inr hrecursive, habove⟩ with hfirst | ⟨q, hq, hfinds⟩
  · exact absurd (eq_firstIndex_of_rank_le htime hfirst) hne
  · obtain ⟨top, unit, hselected, hcounts, hle⟩ := hfinds
    obtain ⟨-, ⟨cell', hcell', htop⟩, hgreatest⟩ := ((hcomplete q hq).selected hv).1 top unit hselected
    rw [hcell', Option.any_some] at hcounts
    refine ⟨q, hq, top, cell', htop, atOrAbove_iff.mpr hle, hcounts.imp_right fun hyes => ⟨hyes, ?_⟩⟩
    intro flat cell'' hflat hno hover
    have hsame : flat = top :=
      indexRank_injective ((hgreatest flat cell'' hflat).antisymm (atOrAbove_iff.mp hover))
    rw [hsame] at hflat
    rw [hkind q hq top cell' cell'' htop hflat, hno] at hyes
    cases hyes

theorem entityHasComponent_of_asked {id : ChunkId} (h : id ∈ st.askedIds query e component) :
    st.entityHasComponentOnTimeline query.timeline e component = true := by
  have hasks := mem_askedIds.mp h
  unfold entityHasComponentOnTimeline
  unfold AsksFor at hasks
  cases hid : st.staticChunkIdsPerEntity.lookup (e, component) with
  | some id => rfl
  | none =>
    rw [hid] at hasks
    obtain ⟨timeline, htimeline, u, hu, -⟩ := hasks
    obtain ⟨s, hs, -⟩ := hu
    rw [htimeline, Option.any_some, hs]
    rfl

theorem entityHasComponent_of_selected (h : st.selectedUnit query e component = some (index, unit)) :
    st.entityHasComponentOnTimeline query.timeline e component = true := by
  obtain ⟨c, hc, -⟩ := mem_filterMap.mp (Seq.maxByKey_mem h)
  obtain ⟨id, hmem, -⟩ := mem_filterMap.mp hc
  exact entityHasComponent_of_asked hmem

theorem latestAt_components (hv : st.WellFiled) (hcache : cache.Current st) (hknows : cache.KnowsClears st)
    (hcomponent : component ≠ clearIsRecursive) {components : List ComponentIdentifier}
    (hmem : component ∈ components)
    (hcomplete : ∀ p ∈ e.selfAndAncestors, st.Complete query p clearIsRecursive)
    (hquery : st.Answerable mode query e component)
    (hloaded : ∀ id ∈ st.askedIds query e component, st.IsPhysical id)
    (hlatest : st.selectedUnit query e component = some (index, unit))
    {answer : QueryCache × LatestAtResults}
    (hanswer : cache.latestAt isRecursive mode st query e components = some answer) :
    answer.2.components.lookup component = some unit ↔ ¬ st.Covered isRecursive query e index := by
  have hindex := selectedUnit_index hlatest
  have hpasses : component ∈ components.filter (st.entityHasComponentOnTimeline query.timeline e) :=
    mem_filter.mpr ⟨hmem, entityHasComponent_of_selected hlatest⟩
  -- a path that is not known has no tombstone to find
  have hknown : ∀ p ∈ e.selfAndAncestors, ∀ index, Finds isRecursive st query e p index →
      p ∈ cache.mightRequireClearing := by
    intro p hp index hfinds
    obtain ⟨clear, unit, hselected, -⟩ := hfinds
    obtain ⟨-, ⟨cell, -, c, i, hc, rfl, hi, -⟩, -⟩ := ((hcomplete p hp).selected hv).1 clear unit hselected
    exact hknows c _ i clear hc hi
  unfold QueryCache.latestAt at hanswer
  obtain ⟨search, hsearch, hfold⟩ := Option.bind_eq_some_iff.mp hanswer
  have hspec : search.cache.Current st ∧ (indexRank index ≤ indexRank search.maxClearIndex ↔
      st.Covered isRecursive query e index) := by
    split at hsearch
    · rename_i hempty
      cases hsearch
      refine ⟨hcache, ⟨.inl, fun h => h.resolve_right fun ⟨p, hp, hfinds⟩ => ?_⟩⟩
      have hnil : cache.mightRequireClearing = [] := by simpa using hempty
      have hp' := hknown p hp index hfinds
      rw [hnil] at hp'
      cases hp'
    · obtain ⟨search', hsearch', hcurrent, -, hiff⟩ := @QueryCache.foldlM_searchClear st query mode e
        isRecursive hv cache.mightRequireClearing e.selfAndAncestors ⟨cache, toLex (MIN, 0), []⟩ hcache
        fun p hp _ => ⟨(hcomplete p hp).answerable, (hcomplete p hp).loaded⟩
      obtain rfl := Option.mem_unique hsearch' hsearch
      refine ⟨hcurrent, (hiff index).trans (or_congr Iff.rfl ?_)⟩
      exact exists_congr fun p => and_congr_right fun hp => and_iff_right_of_imp (hknown p hp index)
  obtain ⟨hyes, hno⟩ := foldlM_queryComponent hv hcomponent hquery hloaded hlatest hindex _ _ _
    (hspec.1 _) hfold
  have hgt : compareIndices index search.maxClearIndex = .gt ↔ ¬ st.Covered isRecursive query e index := by
    rw [compareIndices_eq_gt_iff, ← not_le, hspec.2]
  rw [← hgt]
  constructor
  · intro hsome
    by_contra hnot
    rw [hno fun h => hnot h.2] at hsome
    cases hsome
  · intro hvisible
    exact hyes ⟨hpasses, hvisible⟩

theorem CacheRun.knowsClears
    (h : CacheRun (fun st call => call.Coherent st) Answerable st cache) :
    cache.KnowsClears st := by
  induction h with
  | new config =>
    intro c timeline i index hc
    cases hc
  | call h hcall hallowed ih =>
    have hv := h.current.1
    exact ih.onEvents (Call.run_wellFiled hv hcall hallowed.agrees).filed.sound (Call.run_covers hv hcall)
  | query _ _ hanswer ih =>
    intro c timeline i index hc hi
    rw [latestAtComponent_mightRequireClearing hanswer]
    exact ih c timeline i index hc hi
  | gc _ splitPoint ih => exact ih

/-- After every run that keeps the cache coherent, a query that misses no chunk returns the latest row
of a component exactly if no tombstone hides it, if no tombstone is lost. -/
theorem cacheRun_clears
    (h : CacheRun (fun st call => call.Coherent st) Answerable st cache)
    (hcomponent : component ≠ clearIsRecursive) {components : List ComponentIdentifier}
    (hmem : component ∈ components)
    (hcomplete : ∀ p ∈ e.selfAndAncestors, st.Complete query p clearIsRecursive)
    (hquery : st.Answerable mode query e component)
    (hloaded : ∀ id ∈ st.askedIds query e component, st.IsPhysical id)
    (hlatest : st.selectedUnit query e component = some (index, unit)) :
    (mode ≠ .panicOnMissing → (cache.latestAt isRecursive mode st query e components).isSome) ∧
    ∀ answer, cache.latestAt isRecursive mode st query e components = some answer →
      (st.KeepsClears isRecursive query e index →
        (answer.2.components.lookup component = some unit ↔ ¬ st.Hidden isRecursive query e index)) ∧
      (st.OneKind isRecursive query e →
        (answer.2.components.lookup component = some unit ↔ ¬ st.Hidden isRecursive query e index) →
        st.KeepsClears isRecursive query e index) := by
  obtain ⟨hv, hcache⟩ := h.current
  have htime : MIN ≤ (ofLex index).1 ∨ (ofLex index).1 = STATIC := by
    rcases unitIndex_time (selectedUnit_index hlatest) with hstatic | ⟨-, -, -, htemporal⟩
    · exact .inr hstatic.2
    · exact .inl htemporal
  refine ⟨fun hmode => latestAt_isSome hmode, fun answer hanswer => ?_⟩
  have hreturned := latestAt_components hv hcache h.knowsClears hcomponent hmem hcomplete hquery hloaded
    hlatest hanswer
  rw [hreturned, not_iff_not]
  exact ⟨fun hkeeps => hkeeps.covered_iff hv hcomplete htime,
    fun hkind hiff => keepsClears_of_covered_iff hv hcomplete htime hkind hiff⟩

/-- A tombstone of a single true value is recursive. -/
def isTrue (cell : Cell) : Bool := decide (cell = [[1]])

def tombstoneChunk : ValidChunk where
  toChunk := .ofColumns 1 ⟨["robot"]⟩ 0 [3, 4] [(⟨"frame"⟩, [3, 5].map I64.sat)]
    [(⟨"position"⟩, [some [], none]), (clearIsRecursive, [none, some [[1]]])]
  sane := rfl

def tombstoneStore : ChunkStore := (Op.insertChunk (.countingFrom 100) tombstoneChunk).run (.new ⟨0, 0, 0⟩)

theorem tombstoneStore_complete (hp : p ∈ EntityPath.selfAndAncestors ⟨["robot"]⟩) :
    tombstoneStore.Complete atTen p clearIsRecursive := by
  have htemporal : ∀ q ∈ Assoc.toList tombstoneStore.physicalChunksPerChunkId, q.2.isStatic = false := by
    decide
  have hpaths : ∀ q ∈ EntityPath.selfAndAncestors ⟨["robot"]⟩,
      (∀ id ∈ tombstoneStore.askedIds atTen q clearIsRecursive,
        tombstoneStore.IsPhysical id) ∧
      tombstoneStore.catalog.longest (q, ⟨"frame"⟩, clearIsRecursive) ≤ 9223372036854775807 := by
    decide
  obtain ⟨hloaded, hlength⟩ := hpaths p hp
  refine ⟨hloaded, fun _ timeline htimeline => ?_, fun id hid => ?_, fun c i index hc _ hstatic => ?_⟩
  · cases htimeline
    exact .inl hlength
  · cases hid
  · have hfalse := htemporal _ (Assoc.mem_toList.mpr hc)
    rw [hstatic] at hfalse
    cases hfalse

/-- A query that the tombstone answers. -/
theorem cacheRun_clears_tombstoneStore :
    ∃ cache answer, QueryCache.latestAt isTrue cache .report tombstoneStore atTen
        ⟨["robot"]⟩ [⟨"position"⟩] = some answer ∧
      (answer.2.components.lookup ⟨"position"⟩ = some ⟨tombstoneChunk.toChunk, 0⟩ ↔
        ¬ tombstoneStore.Hidden isTrue atTen ⟨["robot"]⟩ (toLex (⟨.sat 3⟩, 3))) := by
  have hrun : CacheRun (fun st call => call.Coherent st) Answerable tombstoneStore
      (QueryCache.new.onEvents ((Call.insertChunk (.countingFrom 100) tombstoneChunk).run (.new ⟨0, 0, 0⟩)).2) :=
    @CacheRun.call _ _ _ _ (.insertChunk (.countingFrom 100) tombstoneChunk) (.new ⟨0, 0, 0⟩)
    fresh_countingFrom
    (Grown.coherent (.new _) (by decide) _)
  have hquery : tombstoneStore.Answerable .report atTen ⟨["robot"]⟩ ⟨"position"⟩ :=
    answerable_of_short (by decide)
  have hlogged : tombstoneStore.Logged atTen ⟨["robot"]⟩ clearIsRecursive
      (toLex (⟨.sat 5⟩, 4)) [[1]] :=
    ⟨tombstoneChunk.toChunk, 1, rfl, rfl, ⟨by decide, rfl⟩, rfl, by decide⟩
  have habove : AtOrAbove (toLex (⟨.sat 5⟩, 4)) (toLex (⟨.sat 3⟩, 3)) := by
    unfold AtOrAbove
    decide
  have hkeeps : tombstoneStore.KeepsClears isTrue atTen ⟨["robot"]⟩
      (toLex (⟨.sat 3⟩, 3)) := by
    refine ⟨fun hfirst => absurd hfirst (by decide), fun _ _ _ _ _ _ _ _ => ?_⟩
    exact ⟨⟨["robot"]⟩, by decide, _, _, hlogged, habove, .inl rfl⟩
  have hlatest : tombstoneStore.selectedUnit atTen ⟨["robot"]⟩ ⟨"position"⟩ =
      some (toLex (⟨.sat 3⟩, 3), ⟨tombstoneChunk.toChunk, 0⟩) := rfl
  obtain ⟨hsome, hanswers⟩ := @cacheRun_clears _ _ _ _ _ _ isTrue _ _ hrun (by decide) _
    (mem_singleton_self ⟨"position"⟩) (fun p hp => tombstoneStore_complete hp) hquery (by decide) hlatest
  obtain ⟨answer, hanswer⟩ := Option.isSome_iff_exists.mp (hsome nofun)
  exact ⟨_, answer, hanswer, (hanswers answer hanswer).1 hkeeps⟩

def flatChunk : ValidChunk where
  toChunk := .ofColumns 2 ⟨[]⟩ 0 [4, 5] [(⟨"frame"⟩, [5, 6].map I64.sat)]
    [(clearIsRecursive, [some [[1]], some [[0]]])]
  sane := rfl

def flatStore : ChunkStore :=
  (Op.insertChunk (.countingFrom 100) flatChunk).run
    ((Op.insertChunk (.countingFrom 100) ⟨positionsChunk 1 [3] [3], rfl⟩).run (.new ⟨0, 0, 0⟩))

/-- The recursive tombstone hides the row, and the query returns it. -/
theorem flatStore_returns_hidden :
    ∃ cache, CacheRun (fun _ _ => True) (fun _ _ _ _ _ => True) flatStore cache ∧
      flatStore.Hidden isTrue atTen ⟨["robot"]⟩ (toLex (⟨.sat 3⟩, 3)) ∧
      (cache.latestAt isTrue .report flatStore atTen ⟨["robot"]⟩ [⟨"position"⟩]).any
        (fun answer => decide (((answer.2.components.lookup ⟨"position"⟩).bind
          fun unit => unit.index (some ⟨"frame"⟩)) = some (toLex (⟨.sat 3⟩, 3)))) = true := by
  have hrow := @CacheRun.call (fun _ _ => True) (fun _ _ _ _ _ => True) _ _
    (.insertChunk (.countingFrom 100) ⟨positionsChunk 1 [3] [3], rfl⟩) (.new ⟨0, 0, 0⟩)
    fresh_countingFrom trivial
  have hclears := @CacheRun.call (fun _ _ => True) (fun _ _ _ _ _ => True) _ _
    (.insertChunk (.countingFrom 100) flatChunk) hrow fresh_countingFrom trivial
  refine ⟨_, hclears, ⟨⟨[]⟩, by decide, toLex (⟨.sat 5⟩, 4), [[1]], ?_, .inr rfl, ?_⟩, by decide⟩
  · exact ⟨flatChunk.toChunk, 0, rfl, rfl, ⟨by decide, rfl⟩, rfl, by decide⟩
  · unfold AtOrAbove
    decide

end ChunkStore

end Dalaran
