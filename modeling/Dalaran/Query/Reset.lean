import Dalaran.Query.Clears

/-
  Dropping the query cache (`dl_query/src/cache.rs`, `QueryCache::clear`).

  To forget the units of a coherent cache does no harm. But `clear` also forgets
  which entities may have tombstones, and only the events of later changes tell it
  again. Until then a query looks for no tombstone of the others.
  `resetRun_transparent_iff` says that this is all.

  Correspondence (Rust ↔ Lean):
    a recording whose query cache is dropped now and then ↔ `ResetRun`
-/

namespace Dalaran

open List Option QueryCache

/-! ## What the store answers -/

namespace ChunkStore

variable {st : ChunkStore} {query : LatestAtQuery} {mode : ChunkTrackingMode} {e : EntityPath}
  {component : ComponentIdentifier}

def missedIds (st : ChunkStore) (query : LatestAtQuery) (e : EntityPath) (component : ComponentIdentifier) :
    List ChunkId :=
  (st.askedIds query e component).filter fun id => !decide (st.IsPhysical id)

theorem missedIds_eq_nil_iff :
    st.missedIds query e component = [] ↔ ∀ id ∈ st.askedIds query e component, st.IsPhysical id := by
  unfold missedIds
  simp

def foundUnit (st : ChunkStore) (query : LatestAtQuery) (e : EntityPath) (component : ComponentIdentifier) :
    Option ((TimeInt ×ₗ RowId) × UnitChunkShared) :=
  if st.missedIds query e component = [] then st.selectedUnit query e component else none

def PanicsAt (st : ChunkStore) (mode : ChunkTrackingMode) (query : LatestAtQuery) (e : EntityPath)
    (component : ComponentIdentifier) : Prop :=
  mode = .panicOnMissing ∧ st.missedIds query e component ≠ []

instance : Decidable (st.PanicsAt mode query e component) :=
  inferInstanceAs (Decidable (_ ∧ _))

def addFound (st : ChunkStore) (query : LatestAtQuery) (e : EntityPath) (maxClearIndex : TimeInt ×ₗ RowId)
    (results : LatestAtResults) (component : ComponentIdentifier) : LatestAtResults :=
  let results := { results with
    missingVirtual := results.missingVirtual ++ st.missedIds query e component }
  match st.foundUnit query e component with
  | none => results
  | some (index, unit) =>
    if component = clearIsRecursive ∨ compareIndices index maxClearIndex = .gt then
      results.add component index unit
    else results

theorem foldl_addFound_missingVirtual {maxIndex : TimeInt ×ₗ RowId} :
    ∀ (components : List ComponentIdentifier) (results : LatestAtResults),
      (components.foldl (st.addFound query e maxIndex) results).missingVirtual =
        results.missingVirtual ++ components.flatMap (st.missedIds query e)
  | [], results => by simp
  | component :: components, results => by
    have hstep : (st.addFound query e maxIndex results component).missingVirtual =
        results.missingVirtual ++ st.missedIds query e component := by
      unfold addFound
      dsimp only
      split
      · rfl
      · split <;> rfl
    rw [foldl_cons, foldl_addFound_missingVirtual components, hstep, append_assoc, flatMap_cons]

theorem foldl_addFound_congr {maxIndex maxIndex' : TimeInt ×ₗ RowId} {components : List ComponentIdentifier}
    {results : LatestAtResults}
    (h : ∀ component ∈ components, component ≠ clearIsRecursive → ∀ index unit,
      st.foundUnit query e component = some (index, unit) →
        (compareIndices index maxIndex = .gt ↔ compareIndices index maxIndex' = .gt)) :
    components.foldl (st.addFound query e maxIndex) results =
      components.foldl (st.addFound query e maxIndex') results := by
  apply foldl_ext
  intro acc component hmem
  unfold addFound
  cases hfound : st.foundUnit query e component with
  | none => rfl
  | some found =>
    obtain ⟨index, unit⟩ := found
    have hsame : (component = clearIsRecursive ∨ compareIndices index maxIndex = .gt) ↔
        (component = clearIsRecursive ∨ compareIndices index maxIndex' = .gt) := by
      by_cases hclear : component = clearIsRecursive
      · exact iff_of_true (.inl hclear) (.inl hclear)
      · rw [h component hmem hclear index unit hfound]
    dsimp only
    rw [if_congr hsame rfl rfl]

end ChunkStore

namespace QueryCache

open ChunkStore

variable {st : ChunkStore} {cache : QueryCache} {query : LatestAtQuery} {mode : ChunkTrackingMode}
  {e : EntityPath} {component : ComponentIdentifier} {isRecursive : Cell → Bool}
  {maxIndex : TimeInt ×ₗ RowId}

def clear (cache : QueryCache) : QueryCache :=
  { cache with
    mightRequireClearing := []
    latestAtPerCacheKey := ∅ }

theorem clear_current : cache.clear.Current st := new_current

theorem CurrentAt.answer_eq (hv : st.WellFiled) (h : cache.CurrentAt st ⟨e, query.timeline, component⟩)
    (hquery : st.Answerable mode query e component) :
    (cache.latestAtComponent mode st query e component).map (fun answer => answer.2) =
      if st.PanicsAt mode query e component then none
      else some ((st.foundUnit query e component).map fun found => found.2, st.missedIds query e component) := by
  unfold foundUnit
  by_cases hloaded : st.missedIds query e component = []
  · have hno : ¬ st.PanicsAt mode query e component := fun hpanics => hpanics.2 hloaded
    obtain ⟨cache', hanswer⟩ := h.selects hv hquery (missedIds_eq_nil_iff.mp hloaded)
    rw [if_neg hno, if_pos hloaded, hanswer, hloaded]
    rfl
  · have hnew : LatestAtCache.new.perQueryTime.lookup query.at_ = none := rfl
    have hpanics : st.PanicsAt mode query e component ↔ mode = .panicOnMissing := and_iff_left hloaded
    have hmissing : (st.askedIds query e component).filter (fun id => !decide (st.IsPhysical id)) ≠ [] :=
      hloaded
    rw [h.coherent hv hquery, if_neg hloaded, if_congr hpanics rfl rfl]
    unfold LatestAtCache.latestAt
    rw [hnew, latestAtRelevantChunks_eq]
    unfold QueryResults.fromChunkIds missedIds
    cases mode with
    | ignore => exact absurd (missedIds_eq_nil_iff.mpr (hquery.complete rfl)) hloaded
    | report => simp [hmissing]
    | reportTransient => simp [hmissing]
    | panicOnMissing => simp [hmissing]

theorem Current.answered (hv : st.WellFiled) (h : cache.Current st)
    (hquery : st.Answerable mode query e component) {answer : QueryCache × Option UnitChunkShared × List ChunkId}
    (hanswer : cache.latestAtComponent mode st query e component = some answer) :
    answer.1.Current st ∧ ¬ st.PanicsAt mode query e component ∧
      answer.2 = ((st.foundUnit query e component).map fun found => found.2, st.missedIds query e component) := by
  have heq := (h ⟨e, query.timeline, component⟩).answer_eq hv hquery
  rw [hanswer, map_some] at heq
  split at heq
  · cases heq
  · rename_i hno
    exact ⟨fun key => (h key).answered hv (fun _ => hquery) hanswer, hno, some.inj heq⟩

theorem Current.not_answered (hv : st.WellFiled) (h : cache.Current st)
    (hquery : st.Answerable mode query e component)
    (hnone : cache.latestAtComponent mode st query e component = none) :
    st.PanicsAt mode query e component := by
  have heq := (h ⟨e, query.timeline, component⟩).answer_eq hv hquery
  rw [hnone, map_none] at heq
  by_contra hno
  rw [if_neg hno] at heq
  cases heq

/-! ## The components -/

variable {index : TimeInt ×ₗ RowId} {unit : UnitChunkShared}

theorem foundUnit_index
    (h : st.foundUnit query e component = some (index, unit)) : unit.index query.timeline = some index := by
  unfold foundUnit at h
  split at h
  · exact selectedUnit_index h
  · cases h

theorem queryComponent_eq (hv : st.WellFiled) {acc : QueryCache × LatestAtResults} (hcache : acc.1.Current st)
    (hquery : st.Answerable mode query e component) :
    (st.PanicsAt mode query e component → queryComponent mode st query e maxIndex acc component = none) ∧
    (¬ st.PanicsAt mode query e component → ∃ cache', cache'.Current st ∧
      queryComponent mode st query e maxIndex acc component =
        some (cache', st.addFound query e maxIndex acc.2 component)) := by
  unfold queryComponent
  cases hanswer : acc.1.latestAtComponent mode st query e component with
  | none =>
    exact ⟨fun _ => rfl, fun hno => absurd (hcache.not_answered hv hquery hanswer) hno⟩
  | some answer =>
    obtain ⟨hcurrent, hno, heq⟩ := hcache.answered hv hquery hanswer
    refine ⟨fun hpanics => absurd hpanics hno, fun _ => ⟨answer.1, hcurrent, ?_⟩⟩
    unfold addFound
    rw [map_some, heq]
    cases hfound : st.foundUnit query e component with
    | none => rfl
    | some found =>
      obtain ⟨index, unit⟩ := found
      dsimp only [map_some]
      rw [foundUnit_index hfound]
      dsimp only
      split <;> rfl

theorem foldlM_queryComponent_eq (hv : st.WellFiled) :
    ∀ (components : List ComponentIdentifier) (acc : QueryCache × LatestAtResults), acc.1.Current st →
      (∀ component ∈ components, st.Answerable mode query e component) →
      (components.foldlM (queryComponent mode st query e maxIndex) acc).map (fun out => out.2) =
        if ∃ component ∈ components, st.PanicsAt mode query e component then none
        else some (components.foldl (st.addFound query e maxIndex) acc.2)
  | [], acc, _, _ => by simp
  | component :: components, acc, hcache, hquery => by
    obtain ⟨hyes, hno⟩ := @queryComponent_eq st query mode e component maxIndex hv acc hcache
      (hquery component mem_cons_self)
    rw [foldlM_cons]
    by_cases hpanics : st.PanicsAt mode query e component
    · rw [hyes hpanics, if_pos ⟨component, mem_cons_self, hpanics⟩]
      rfl
    · obtain ⟨cache', hcurrent, hstep⟩ := hno hpanics
      have hsame : (∃ other ∈ component :: components, st.PanicsAt mode query e other) ↔
          ∃ other ∈ components, st.PanicsAt mode query e other := by
        simp [hpanics]
      rw [hstep, if_congr hsame rfl rfl, foldl_cons]
      exact foldlM_queryComponent_eq hv components _ hcurrent fun other hother =>
        hquery other (mem_cons_of_mem component hother)

/-! ## The search -/

theorem foldlM_searchClear_missingVirtual (hv : st.WellFiled) {known : List EntityPath} :
    ∀ (paths : List EntityPath) (search out : ClearSearch), search.cache.Current st →
      (∀ p ∈ paths, p ∈ known → st.Answerable mode query p clearIsRecursive) →
      paths.foldlM (searchClear isRecursive mode st query e known) search = some out →
      out.cache.Current st ∧ out.missingVirtual = search.missingVirtual ++
        paths.flatMap fun p => if p ∈ known then st.missedIds query p clearIsRecursive else []
  | [], search, out, hcache, _, h => by
    cases h
    exact ⟨hcache, by simp⟩
  | p :: paths, search, out, hcache, hquery, h => by
    rw [foldlM_cons] at h
    obtain ⟨mid, hmid, hrest⟩ := bind_eq_some_iff.mp h
    have hstep : mid.cache.Current st ∧ mid.missingVirtual = search.missingVirtual ++
        if p ∈ known then st.missedIds query p clearIsRecursive else [] := by
      unfold searchClear at hmid
      by_cases hknown : p ∈ known
      · rw [if_neg (not_not.mpr hknown)] at hmid
        rw [if_pos hknown]
        obtain ⟨answer, hanswer, hmid⟩ := map_eq_some_iff.mp hmid
        obtain ⟨hcurrent, -, heq⟩ := hcache.answered hv (hquery p mem_cons_self hknown) hanswer
        rw [heq] at hmid
        subst hmid
        cases hfound : st.foundUnit query p clearIsRecursive with
        | none =>
          dsimp only [map_none]
          split
          · exact ⟨hcurrent, rfl⟩
          · rename_i hnil
            rw [not_not.mp hnil, append_nil]
            exact ⟨hcurrent, rfl⟩
        | some found =>
          obtain ⟨index, unit⟩ := found
          have hnil : st.missedIds query p clearIsRecursive = [] := by
            by_contra hmissing
            unfold foundUnit at hfound
            rw [if_neg hmissing] at hfound
            cases hfound
          dsimp only [map_some]
          rw [foundUnit_index hfound, hnil, append_nil]
          dsimp only
          split <;> exact ⟨hcurrent, rfl⟩
      · rw [if_pos hknown] at hmid
        cases hmid
        rw [if_neg hknown, append_nil]
        exact ⟨hcache, rfl⟩
    obtain ⟨hcurrent, hmissing⟩ := foldlM_searchClear_missingVirtual hv paths mid out hstep.1
      (fun q hq => hquery q (mem_cons_of_mem p hq)) hrest
    refine ⟨hcurrent, ?_⟩
    rw [hmissing, hstep.2, flatMap_cons, append_assoc]

/-! ## The results -/

variable {components : List ComponentIdentifier}

theorem latestAt_eq : cache.latestAt isRecursive mode st query e components =
    (e.selfAndAncestors.foldlM (searchClear isRecursive mode st query e cache.mightRequireClearing)
      ⟨cache, firstIndex, []⟩).bind fun search =>
        (components.filter (st.entityHasComponentOnTimeline query.timeline e)).foldlM
          (queryComponent mode st query e search.maxClearIndex)
          (search.cache, { LatestAtResults.empty with missingVirtual := search.missingVirtual }) := by
  have hskips : ∀ (paths : List EntityPath) (search : ClearSearch),
      paths.foldlM (searchClear isRecursive mode st query e []) search = some search := by
    intro paths
    induction paths with
    | nil => intro search; rfl
    | cons p paths ih =>
      intro search
      exact ih search
  unfold latestAt
  dsimp only
  split
  · rename_i hempty
    rw [List.isEmpty_iff.mp hempty, hskips]
    rfl
  · rfl

theorem latestAt_of_loaded (hv : st.WellFiled) (hcache : cache.Current st)
    (hquery : ∀ component ∈ components, st.Answerable mode query e component)
    (hclears : ∀ p ∈ e.selfAndAncestors, p ∈ cache.mightRequireClearing →
      st.Answerable mode query p clearIsRecursive ∧ st.missedIds query p clearIsRecursive = []) :
    ∃ maxIndex, (∀ index, indexRank index ≤ indexRank maxIndex ↔ indexRank index ≤ indexRank firstIndex ∨
        ∃ p ∈ e.selfAndAncestors, p ∈ cache.mightRequireClearing ∧ Finds isRecursive st query e p index) ∧
      (cache.latestAt isRecursive mode st query e components).map (fun answer => answer.2) =
        let components := components.filter (st.entityHasComponentOnTimeline query.timeline e)
        if ∃ component ∈ components, st.PanicsAt mode query e component then none
        else some (components.foldl (st.addFound query e maxIndex) .empty) := by
  obtain ⟨search, hsearch, hcurrent, hmissing, hmax⟩ := @foldlM_searchClear st query mode e isRecursive hv
    cache.mightRequireClearing e.selfAndAncestors ⟨cache, firstIndex, []⟩ hcache fun p hp hknown =>
      ⟨(hclears p hp hknown).1, missedIds_eq_nil_iff.mp (hclears p hp hknown).2⟩
  refine ⟨search.maxClearIndex, hmax, ?_⟩
  rw [latestAt_eq, hsearch, bind_some, hmissing]
  exact foldlM_queryComponent_eq hv _ _ hcurrent fun component hcomponent =>
    hquery component (mem_of_mem_filter hcomponent)

theorem lookup_foldl_addFound (hcomponent : component ≠ clearIsRecursive)
    (hfound : st.foundUnit query e component = some (index, unit)) :
    ∀ (components : List ComponentIdentifier) (results : LatestAtResults),
      (components.foldl (st.addFound query e maxIndex) results).components.lookup component =
        if component ∈ components ∧ compareIndices index maxIndex = .gt then some unit
        else results.components.lookup component
  | [], results => by simp
  | other :: components, results => by
    have hstep : (st.addFound query e maxIndex results other).components.lookup component =
        if other = component ∧ compareIndices index maxIndex = .gt then some unit
        else results.components.lookup component := by
      unfold addFound
      by_cases hsame : other = component
      · subst hsame
        rw [hfound]
        simp only [hcomponent, false_or, true_and]
        split
        · exact AList.lookup_insert _
        · rfl
      · rw [if_neg fun h => hsame h.1]
        split
        · rfl
        · split
          · exact AList.lookup_insert_ne (Ne.symm hsame)
          · rfl
    rw [foldl_cons, lookup_foldl_addFound hcomponent hfound components, hstep]
    by_cases hgt : compareIndices index maxIndex = .gt <;> by_cases hlater : component ∈ components <;>
      simp [hgt, hlater, eq_comm]

/-- No known path misses a tombstone, or has one at or above a row that the query finds. -/
structure Unaffected (isRecursive : Cell → Bool) (st : ChunkStore) (known : List EntityPath)
    (query : LatestAtQuery) (e : EntityPath) (components : List ComponentIdentifier) : Prop where
  loaded : ∀ p ∈ e.selfAndAncestors, p ∈ known → st.missedIds query p clearIsRecursive = []
  visible : ∀ component ∈ components, component ≠ clearIsRecursive → ∀ index unit,
    st.foundUnit query e component = some (index, unit) → indexRank firstIndex < indexRank index →
      ∀ p ∈ e.selfAndAncestors, p ∈ known → ¬ Finds isRecursive st query e p index

theorem exists_panicsAt_iff :
    (∃ component ∈ components.filter (st.entityHasComponentOnTimeline query.timeline e),
      st.PanicsAt mode query e component) ↔ ∃ component ∈ components, st.PanicsAt mode query e component := by
  constructor
  · intro ⟨component, hmem, hpanics⟩
    exact ⟨component, mem_of_mem_filter hmem, hpanics⟩
  · intro ⟨component, hmem, hpanics⟩
    obtain ⟨id, hid⟩ := exists_mem_of_ne_nil _ hpanics.2
    have hasked := mem_of_mem_filter hid
    exact ⟨component, mem_filter.mpr ⟨hmem, entityHasComponent_of_asked hasked⟩, hpanics⟩

theorem mem_filter_of_found (hmem : component ∈ components)
    (hfound : st.foundUnit query e component = some (index, unit)) :
    component ∈ components.filter (st.entityHasComponentOnTimeline query.timeline e) := by
  unfold foundUnit at hfound
  split at hfound
  · exact mem_filter.mpr ⟨hmem, entityHasComponent_of_selected hfound⟩
  · cases hfound

theorem loaded_of_latestAt_eq (hv : st.WellFiled) (hcache : cache.Current st)
    (hquery : ∀ component ∈ components, st.Answerable mode query e component)
    (hclears : ∀ p ∈ e.selfAndAncestors, p ∈ cache.mightRequireClearing →
      st.Answerable mode query p clearIsRecursive) {results : LatestAtResults}
    (hmissing : results.missingVirtual =
      (components.filter (st.entityHasComponentOnTimeline query.timeline e)).flatMap (st.missedIds query e))
    (h : (cache.latestAt isRecursive mode st query e components).map (fun answer => answer.2) = some results) :
    ∀ p ∈ e.selfAndAncestors, p ∈ cache.mightRequireClearing → st.missedIds query p clearIsRecursive = [] := by
  obtain ⟨out, hout, rfl⟩ := map_eq_some_iff.mp h
  rw [latestAt_eq] at hout
  obtain ⟨search, hsearch, hfold⟩ := bind_eq_some_iff.mp hout
  obtain ⟨hcurrent, hmissed⟩ := foldlM_searchClear_missingVirtual hv _ _ _ hcache hclears hsearch
  have hresults := @foldlM_queryComponent_eq st query mode e search.maxClearIndex hv
    (components.filter (st.entityHasComponentOnTimeline query.timeline e))
    (search.cache, { LatestAtResults.empty with missingVirtual := search.missingVirtual }) hcurrent
    fun component hcomponent => hquery component (mem_of_mem_filter hcomponent)
  rw [hfold, map_some] at hresults
  split at hresults
  · cases hresults
  · rw [some.inj hresults, foldl_addFound_missingVirtual] at hmissing
    have hnil : search.missingVirtual = [] := append_left_eq_self.mp hmissing
    rw [hmissed, nil_append, flatMap_eq_nil_iff] at hnil
    intro p hp hknown
    have hmissedIds := hnil p hp
    rwa [if_pos hknown] at hmissedIds

theorem latestAt_clear_iff (hv : st.WellFiled) (hcache : cache.Current st)
    (hquery : ∀ component ∈ components, st.Answerable mode query e component)
    (hclears : ∀ p ∈ e.selfAndAncestors, p ∈ cache.mightRequireClearing →
      st.Answerable mode query p clearIsRecursive) :
    (cache.latestAt isRecursive mode st query e components).map (fun answer => answer.2) =
        (cache.clear.latestAt isRecursive mode st query e components).map (fun answer => answer.2) ↔
      (∃ component ∈ components, st.PanicsAt mode query e component) ∨
        Unaffected isRecursive st cache.mightRequireClearing query e components := by
  obtain ⟨maxIndex', hmax', hafter⟩ := @latestAt_of_loaded st cache.clear query mode e isRecursive components
    hv clear_current hquery fun p _ hknown => absurd hknown not_mem_nil
  have hfirst : ∀ index, compareIndices index maxIndex' = .gt ↔ indexRank firstIndex < indexRank index := by
    intro index
    rw [compareIndices_eq_gt_iff, ← not_le, ← not_le, hmax' index]
    refine not_congr (or_iff_left fun ⟨p, _, hknown, _⟩ => ?_)
    exact absurd hknown not_mem_nil
  rw [hafter]
  by_cases hpanics : ∃ component ∈ components, st.PanicsAt mode query e component
  · -- both panic over the components, or the search does before
    rw [if_pos (exists_panicsAt_iff.mpr hpanics)]
    refine iff_of_true ?_ (.inl hpanics)
    rw [latestAt_eq, map_eq_none_iff, bind_eq_none_iff]
    intro search hsearch
    obtain ⟨hcurrent, -⟩ := foldlM_searchClear_missingVirtual hv _ _ _ hcache hclears hsearch
    have hresults := @foldlM_queryComponent_eq st query mode e search.maxClearIndex hv
      (components.filter (st.entityHasComponentOnTimeline query.timeline e))
      (search.cache, { LatestAtResults.empty with missingVirtual := search.missingVirtual }) hcurrent
      fun component hcomponent => hquery component (mem_of_mem_filter hcomponent)
    rw [if_pos (exists_panicsAt_iff.mpr hpanics)] at hresults
    exact map_eq_none_iff.mp hresults
  · rw [if_neg fun h => hpanics (exists_panicsAt_iff.mp h), or_iff_right hpanics]
    have hbefore : (∀ p ∈ e.selfAndAncestors, p ∈ cache.mightRequireClearing →
        st.missedIds query p clearIsRecursive = []) → ∃ maxIndex, (∀ index, compareIndices index maxIndex = .gt ↔
          indexRank firstIndex < indexRank index ∧ ∀ p ∈ e.selfAndAncestors, p ∈ cache.mightRequireClearing →
            ¬ Finds isRecursive st query e p index) ∧
        (cache.latestAt isRecursive mode st query e components).map (fun answer => answer.2) =
          some ((components.filter (st.entityHasComponentOnTimeline query.timeline e)).foldl
            (st.addFound query e maxIndex) .empty) := by
      intro hloaded
      obtain ⟨maxIndex, hmax, hresults⟩ := @latestAt_of_loaded st cache query mode e isRecursive components hv
        hcache hquery fun p hp hknown => ⟨hclears p hp hknown, hloaded p hp hknown⟩
      rw [if_neg fun h => hpanics (exists_panicsAt_iff.mp h)] at hresults
      refine ⟨maxIndex, fun index => ?_, hresults⟩
      rw [compareIndices_eq_gt_iff, ← not_le, hmax index, not_or, not_le]
      refine and_congr_right fun _ => ?_
      simp
    constructor
    · intro hsame
      have hloaded := loaded_of_latestAt_eq hv hcache hquery hclears
        ((foldl_addFound_missingVirtual _ _).trans (nil_append _)) hsame
      obtain ⟨maxIndex, hmax, hresults⟩ := hbefore hloaded
      refine ⟨hloaded, fun component hmem hcomponent index unit hfound habove p hp hknown => ?_⟩
      have hin := mem_filter_of_found hmem hfound
      have hlookups := congrArg (fun results => results.components.lookup component)
        (mem_unique hresults hsame)
      rw [lookup_foldl_addFound hcomponent hfound, lookup_foldl_addFound hcomponent hfound,
        if_pos (⟨hin, (hfirst index).mpr habove⟩ : _ ∧ compareIndices index maxIndex' = .gt)] at hlookups
      split at hlookups
      · rename_i hgt
        exact ((hmax index).mp hgt.2).2 p hp hknown
      · cases hlookups
    · intro hunaffected
      obtain ⟨maxIndex, hmax, hresults⟩ := hbefore hunaffected.loaded
      rw [hresults]
      refine congrArg some (foldl_addFound_congr fun component hmem hcomponent index unit hfound => ?_)
      rw [hmax, hfirst]
      exact and_iff_left_of_imp fun habove =>
        hunaffected.visible component (mem_of_mem_filter hmem) hcomponent index unit hfound habove

end QueryCache

/-! ## Runs -/

namespace ChunkStore

variable {st : ChunkStore} {cache : QueryCache} {query : LatestAtQuery} {mode : ChunkTrackingMode}
  {e : EntityPath} {isRecursive : Cell → Bool} {components : List ComponentIdentifier}

/-- A store and its query cache: calls whose events the cache is told, queries, collections, and the
cache dropped. -/
inductive ResetRun (allowedCall : ChunkStore → Call → Prop)
    (allowedQuery : ChunkStore → ChunkTrackingMode → LatestAtQuery → EntityPath → ComponentIdentifier → Prop) :
    ChunkStore → QueryCache → Prop
  | new (config : ChunkSplitConfig) : ResetRun allowedCall allowedQuery (.new config) .new
  | call {st : ChunkStore} {cache : QueryCache} {call : Call} (h : ResetRun allowedCall allowedQuery st cache)
      (hcall : call.Possible st) (hallowed : allowedCall st call) :
      ResetRun allowedCall allowedQuery (call.run st).1 (cache.onEvents (call.run st).2)
  | query {st : ChunkStore} {cache : QueryCache} {mode : ChunkTrackingMode} {query : LatestAtQuery}
      {e : EntityPath} {component : ComponentIdentifier}
      {answer : QueryCache × Option UnitChunkShared × List ChunkId}
      (h : ResetRun allowedCall allowedQuery st cache) (hallowed : allowedQuery st mode query e component)
      (hanswer : cache.latestAtComponent mode st query e component = some answer) :
      ResetRun allowedCall allowedQuery st answer.1
  | gc {st : ChunkStore} {cache : QueryCache} (h : ResetRun allowedCall allowedQuery st cache)
      (splitPoint : QueryCacheKey → Nat) : ResetRun allowedCall allowedQuery st (cache.gc splitPoint)
  | clear {st : ChunkStore} {cache : QueryCache} (h : ResetRun allowedCall allowedQuery st cache) :
      ResetRun allowedCall allowedQuery st cache.clear

theorem ResetRun.current
    (h : ResetRun (fun st call => call.Coherent st) Answerable st cache) :
    st.WellFiled ∧ cache.Current st := by
  induction h with
  | new config => exact ⟨new_wellFiled config, new_current⟩
  | call _ hcall hallowed ih =>
    have hv := Call.run_wellFiled ih.1 hcall hallowed.agrees
    exact ⟨hv, ih.2.onEvents ih.1 hv (Call.run_covers ih.1 hcall) hallowed.joins hallowed.reach⟩
  | query _ hallowed hanswer ih =>
    exact ⟨ih.1, fun key => (ih.2 key).answered ih.1 (fun _ => hallowed) hanswer⟩
  | gc _ splitPoint ih => exact ⟨ih.1, ih.2.gc splitPoint⟩
  | clear _ ih => exact ⟨ih.1, clear_current⟩

/-- After every run that keeps the cache coherent, a query answers the same before and after the cache
is dropped exactly if it panics over a chunk of the components, or no known tombstone bears on it. -/
theorem resetRun_transparent_iff
    (h : ResetRun (fun st call => call.Coherent st) Answerable st cache)
    (hquery : ∀ component ∈ components, st.Answerable mode query e component)
    (hclears : ∀ p ∈ e.selfAndAncestors, p ∈ cache.mightRequireClearing →
      st.Answerable mode query p clearIsRecursive) :
    (cache.latestAt isRecursive mode st query e components).map (fun answer => answer.2) =
        (cache.clear.latestAt isRecursive mode st query e components).map (fun answer => answer.2) ↔
      (∃ component ∈ components, st.PanicsAt mode query e component) ∨
        QueryCache.Unaffected isRecursive st cache.mightRequireClearing query e components :=
  latestAt_clear_iff h.current.1 h.current.2 hquery hclears

theorem resetRun_tombstoneStore :
    ResetRun (fun st call => call.Coherent st) Answerable tombstoneStore
      (QueryCache.new.onEvents ((Call.insertChunk (.countingFrom 100) tombstoneChunk).run (.new ⟨0, 0, 0⟩)).2) :=
  @ResetRun.call _ _ _ _ (.insertChunk (.countingFrom 100) tombstoneChunk) (.new ⟨0, 0, 0⟩)
    fresh_countingFrom
    (Grown.coherent (.new _) (by decide) _)

def insertRevived : Call := .insertChunk (.countingFrom 100) ⟨frameChunk 2 ⟨["robot"]⟩ [5, 6] [7, 4], rfl⟩

def revivedStore : ChunkStore := (insertRevived.run tombstoneStore).1

/-- A query that finds a row behind the tombstone. -/
theorem resetRun_transparent_revivedStore :
    ∃ cache, ResetRun (fun st call => call.Coherent st) Answerable revivedStore cache ∧
      (cache.latestAt isTrue .report revivedStore atTen ⟨["robot"]⟩
          [⟨"position"⟩]).map (fun answer => answer.2) =
        (cache.clear.latestAt isTrue .report revivedStore atTen ⟨["robot"]⟩
          [⟨"position"⟩]).map (fun answer => answer.2) := by
  have hgrown : tombstoneStore.Grown := @Reachable.step _ _ (.insertChunk (.countingFrom 100) tombstoneChunk) (.new _)
    fresh_countingFrom rfl
  have hrun := @ResetRun.call (fun st call => call.Coherent st) Answerable _ _ insertRevived resetRun_tombstoneStore
    fresh_countingFrom (hgrown.coherent (by decide) _)
  refine ⟨_, hrun, (resetRun_transparent_iff hrun (fun component hmem => ?_) fun p hp _ => ?_).mpr (.inr ?_)⟩
  · rw [mem_singleton.mp hmem]
    exact answerable_of_short (by decide)
  · have hlengths : ∀ p ∈ EntityPath.selfAndAncestors ⟨["robot"]⟩,
        revivedStore.catalog.longest (p, ⟨"frame"⟩, clearIsRecursive) ≤ 9223372036854775807 := by decide
    exact answerable_of_short (hlengths p hp)
  · have hpaths : ∀ p ∈ EntityPath.selfAndAncestors ⟨["robot"]⟩,
        revivedStore.missedIds atTen p clearIsRecursive = [] ∧
        ∀ found ∈ revivedStore.selectedUnit atTen p clearIsRecursive,
          found.1 = toLex (⟨.sat 5⟩, 4) := by decide
    refine ⟨fun p hp _ => (hpaths p hp).1, fun component hmem _ index unit hfound _ p hp _ => ?_⟩
    rw [mem_singleton.mp hmem] at hfound
    have hposition : ∀ found ∈ revivedStore.foundUnit atTen ⟨["robot"]⟩ ⟨"position"⟩,
        found.1 = toLex (⟨.sat 7⟩, 5) := by decide
    obtain rfl := hposition _ hfound
    rintro ⟨clear, tombstone, hclear, -, hle⟩
    obtain rfl := (hpaths p hp).2 _ hclear
    exact absurd hle (by decide)

/-- The tombstone drops the row before the cache is dropped, and not after. -/
theorem tombstoneStore_not_transparent :
    ∃ cache, ResetRun (fun st call => call.Coherent st) Answerable tombstoneStore
        cache ∧
      (cache.latestAt isTrue .report tombstoneStore atTen ⟨["robot"]⟩
          [⟨"position"⟩]).map (fun answer => answer.2) ≠
        (cache.clear.latestAt isTrue .report tombstoneStore atTen ⟨["robot"]⟩
          [⟨"position"⟩]).map (fun answer => answer.2) := by
  refine ⟨_, resetRun_tombstoneStore, fun h => ?_⟩
  have hlookups := congrArg (Option.map fun results : LatestAtResults =>
    (results.components.lookup ⟨"position"⟩).isSome) h
  revert hlookups
  decide

end ChunkStore

end Dalaran
