import Dalaran.Query.LatestPerTime
import Dalaran.Query.Completeness

/-
  The query cache, its range part (`dl_query/src/range.rs`, `cache.rs`).

  A range cache holds, for one entity, timeline and component, the chunks that
  queries found, densified on the component and sorted by the timeline, under the
  ids of the chunks. Every query asks the store again, and cuts its rows out of the
  cached chunks. The events of the store leave the ids they touch in the cache, and
  the next query forgets the chunks of these ids.

  Left out: whether a cached chunk was copied, which counts for its size.

  Correspondence (Rust ↔ Lean):
    `CompactedEvents`, its chunk ids ↔ `staticIds`, `rangeIds`
-/

namespace Dalaran

open List Assoc

/-! ## Chunks as they are cached -/

namespace Chunk

def withId (c : Chunk) (id : ChunkId) : Chunk := { c with id := id }

/-- Densified on the component and sorted by the timeline of a key, under its own id. -/
def preprocessed (env : Env) (k : Nat) (c : Chunk) (timeline : TimelineName) (component : ComponentIdentifier) :
    Chunk × Nat :=
  let chunk := c.denseInOrder env k timeline component
  (chunk.1.withId c.id, chunk.2)

end Chunk

/-! ## One key -/

structure RangeCache where
  chunks : Assoc ChunkId Chunk
  pendingInvalidations : List ChunkId

namespace RangeCache

def new : RangeCache := ⟨∅, []⟩

def handlePendingInvalidation (cache : RangeCache) : RangeCache where
  chunks := Assoc.filterMap cache.chunks fun id c => if id ∈ cache.pendingInvalidations then none else some c
  pendingInvalidations := []

def invalidate (cache : RangeCache) (ids : List ChunkId) : RangeCache :=
  { cache with pendingInvalidations := cache.pendingInvalidations ∪ ids }

def orInsert (env : Env) (timeline : TimelineName) (component : ComponentIdentifier) (acc : RangeCache × Nat)
    (raw : Chunk) : RangeCache × Nat :=
  match acc.1.chunks.lookup raw.id with
  | some _ => acc
  | none =>
    let chunk := raw.preprocessed env acc.2 timeline component
    ({ acc.1 with chunks := AList.insert raw.id chunk.1 acc.1.chunks }, chunk.2)

def rangeEach (env : Env) (query : RangeQuery) (component : ComponentIdentifier) :
    Nat → List Chunk → List Chunk × Nat
  | k, [] => ([], k)
  | k, c :: cached =>
    let chunk := c.range env k query component
    let rest := rangeEach env query component chunk.2 cached
    (chunk.1.withId c.id :: rest.1, rest.2)

/-- The rows of the chunks that the store finds, and the chunks it misses. -/
def range (env : Env) (k : Nat) (cache : RangeCache) (mode : ChunkTrackingMode) (st : ChunkStore)
    (query : RangeQuery) (e : EntityPath) (component : ComponentIdentifier) :
    Option (RangeCache × (List Chunk × List ChunkId) × Nat) :=
  (st.rangeRelevantChunks mode query e component).map fun results =>
    let cached := results.chunks.foldl (orInsert env query.timeline component) (cache, k)
    let chunks := rangeEach env query component cached.2
      (results.chunks.filterMap fun raw => cached.1.chunks.lookup raw.id)
    (cached.1, (chunks.1.filter fun c => !c.isEmpty, results.missingVirtual), chunks.2)

end RangeCache

/-! ## Events -/

namespace ChunkStoreDiff

def compactedIds : ChunkDirectLineageReport → List ChunkId
  | .compactedFrom sources => sources.map (·.id)
  | _ => []

/-- The static chunks a diff touches, under the components it touches them for. -/
def staticIds : ChunkStoreDiff → List ((EntityPath × ComponentIdentifier) × ChunkId)
  | .virtualAddition manifest => Assoc.toList manifest.staticMap
  | .addition before after lineage =>
    if before.isStatic then
      after.components.keys.flatMap fun component =>
        (after.id :: compactedIds lineage).map fun id => ((after.entityPath, component), id)
    else []
  | .deletion del =>
    if del.chunk.isStatic then
      del.chunk.components.keys.map fun component => ((del.chunk.entityPath, component), del.chunk.id)
    else []

/-- The temporal chunks a diff touches, under the keys it touches them for. -/
def rangeIds : ChunkStoreDiff → List (QueryCacheKey × ChunkId)
  | .virtualAddition manifest => (Assoc.toList manifest.temporalMap).map fun p =>
      (⟨p.1.1, some p.1.2.1.name, p.1.2.2.1⟩, p.1.2.2.2)
  | .addition _ after lineage => after.componentRanges.flatMap fun r =>
      (after.id :: compactedIds lineage).map fun id => (⟨r.1.1, some r.1.2.1, r.1.2.2⟩, id)
  | .deletion del => del.chunk.componentRanges.map fun r => (⟨r.1.1, some r.1.2.1, r.1.2.2⟩, del.chunk.id)

end ChunkStoreDiff

def touchedIds (diffs : List ChunkStoreDiff) (key : QueryCacheKey) : List ChunkId :=
  ((diffs.flatMap ChunkStoreDiff.staticIds).filter fun p =>
      decide (p.1 = (key.entityPath, key.component))).map (fun p => p.2) ++
    ((diffs.flatMap ChunkStoreDiff.rangeIds).filter fun p => decide (p.1 = key)).map fun p => p.2

/-! ## The cache of a store -/

structure FullQueryCache extends QueryCache where
  rangePerCacheKey : Assoc QueryCacheKey RangeCache

structure RangeResults where
  missingVirtual : List ChunkId
  components : Assoc ComponentIdentifier (List Chunk)

namespace FullQueryCache

def new : FullQueryCache := { QueryCache.new with rangePerCacheKey := ∅ }

def onEvents (cache : FullQueryCache) (diffs : List ChunkStoreDiff) : FullQueryCache :=
  { cache.toQueryCache.onEvents diffs with
    rangePerCacheKey := Assoc.map cache.rangePerCacheKey fun key c => c.invalidate (touchedIds diffs key) }

def gc (cache : FullQueryCache) (splitPoint : QueryCacheKey → Nat) : FullQueryCache :=
  { cache.toQueryCache.gc splitPoint with rangePerCacheKey := cache.rangePerCacheKey }

def rangeComponent (env : Env) (mode : ChunkTrackingMode) (st : ChunkStore) (query : RangeQuery)
    (e : EntityPath) (acc : FullQueryCache × RangeResults × Nat) (component : ComponentIdentifier) :
    Option (FullQueryCache × RangeResults × Nat) :=
  let key : QueryCacheKey := ⟨e, some query.timeline, component⟩
  let entry := ((acc.1.rangePerCacheKey.lookup key).getD .new).handlePendingInvalidation
  (entry.range env acc.2.2 mode st query e component).map fun answer =>
    ({ acc.1 with rangePerCacheKey := AList.insert key answer.1 acc.1.rangePerCacheKey },
      { missingVirtual := acc.2.1.missingVirtual ++ answer.2.1.2
        components :=
          if answer.2.1.1.isEmpty then acc.2.1.components
          else AList.insert component answer.2.1.1 acc.2.1.components },
      answer.2.2)

def range (env : Env) (k : Nat) (cache : FullQueryCache) (mode : ChunkTrackingMode) (st : ChunkStore)
    (query : RangeQuery) (e : EntityPath) (components : List ComponentIdentifier) :
    Option (FullQueryCache × RangeResults × Nat) :=
  (components.filter (st.entityHasComponentOnTimeline (some query.timeline) e)).foldlM
    (rangeComponent env mode st query e) (cache, ⟨[], ∅⟩, k)

end FullQueryCache

/-! ## What is cached of a chunk -/

namespace Chunk

variable {c raw cached : Chunk} {e : EntityPath} {timeline : TimelineName} {component : ComponentIdentifier}

def FiledUnder (c : Chunk) (e : EntityPath) (timeline : TimelineName) (component : ComponentIdentifier) : Prop :=
  c.entityPath = e ∧ (c.isStatic = true ∧ (c.components.lookup component).isSome ∨
    (c.componentRange timeline component).isSome)

theorem exists_columns_of_componentRange (h : (c.componentRange timeline component).isSome) :
    ∃ tc column, c.timelines.lookup timeline = some tc ∧ c.components.lookup component = some column := by
  obtain ⟨range, hrange⟩ := Option.isSome_iff_exists.mp h
  obtain ⟨tc, htc, hbind⟩ := Option.bind_eq_some_iff.mp hrange
  obtain ⟨column, hcol, -⟩ := Option.bind_eq_some_iff.mp hbind
  exact ⟨tc, column, htc, hcol⟩

def CachedAs (raw cached : Chunk) (timeline : TimelineName) (component : ComponentIdentifier) : Prop :=
  ∃ env k, cached = (raw.preprocessed env k timeline component).1

theorem CachedAs.spec (hwf : raw.WellFormed) (hrange : (raw.componentRange timeline component).isSome)
    (h : raw.CachedAs cached timeline component) :
    cached.WellFormed ∧ (cached.timelines.lookup timeline).isSome ∧
      (cached.components.lookup component).isSome ∧ cached.rows.Perm (raw.cellRows component) := by
  obtain ⟨env, k, rfl⟩ := h
  obtain ⟨tc, column, htc, hcol⟩ := exists_columns_of_componentRange hrange
  obtain ⟨hdense, hperm, hlookup, -⟩ := denseInOrder_spec env k hwf htc hcol rfl
  have hcolumns := @denseInOrder_components raw component env k hwf timeline component
  rw [hcol, Option.isSome_some] at hcolumns
  exact ⟨⟨hdense.isSorted_eq, hdense.times_length, hdense.times_wf, hdense.cells_length⟩, hlookup, hcolumns, hperm⟩

theorem CachedAs.rows_of_range (env : Env) (k : Nat) {query : RangeQuery} (hwf : raw.WellFormed)
    (hrange : (raw.componentRange query.timeline component).isSome)
    (h : raw.CachedAs cached query.timeline component) (hbounds : query.options.includeExtendedBounds = false) :
    (cached.range env k query component).1.rows.Perm
      ((raw.rows.filter (query.asksFor component)).map (query.keep component)) := by
  obtain ⟨hcached, htl, hcol, hperm⟩ := h.spec hwf hrange
  obtain ⟨tc, htc⟩ := Option.isSome_iff_exists.mp htl
  obtain ⟨column, hcolumn⟩ := Option.isSome_iff_exists.mp hcol
  have hrows := (range_temporal env k query hcached hbounds htc hcolumn rfl).1
  refine hrows.trans (((hperm.filter _).trans (.of_eq ?_)).map _)
  unfold cellRows
  rw [filter_filter]
  apply filter_congr
  intro row _
  unfold RangeQuery.asksFor
  rw [Bool.and_right_comm, Bool.and_self]

end Chunk

/-! ## Coherence -/

namespace RangeCache

open ChunkStore

variable {st : ChunkStore} {cache : RangeCache} {e : EntityPath} {timeline : TimelineName}
  {component : ComponentIdentifier} {env : Env} {mode : ChunkTrackingMode} {query : RangeQuery}

/-- What is cached under the id of a chunk and not invalidated was made of the chunk. -/
def Pending (st : ChunkStore) (e : EntityPath) (timeline : TimelineName) (component : ComponentIdentifier)
    (cache : RangeCache) : Prop :=
  ∀ id cached, cache.chunks.lookup id = some cached → id ∉ cache.pendingInvalidations →
    ∀ c, st.physical id = some c → c.FiledUnder e timeline component → c.CachedAs cached timeline component

/-- Nothing is invalidated either. -/
structure Exact (st : ChunkStore) (e : EntityPath) (timeline : TimelineName) (component : ComponentIdentifier)
    (cache : RangeCache) : Prop where
  pending : cache.Pending st e timeline component
  handled : cache.pendingInvalidations = []

theorem new_pending : new.Pending st e timeline component := by
  intro id cached h
  cases h

theorem Pending.handle (h : cache.Pending st e timeline component) :
    cache.handlePendingInvalidation.Exact st e timeline component := by
  refine ⟨?_, rfl⟩
  intro id cached hcached _ c hc hfiled
  unfold handlePendingInvalidation at hcached
  rw [lookup_filterMap] at hcached
  obtain ⟨cached', hcached', hkept⟩ := Option.bind_eq_some_iff.mp hcached
  split at hkept
  · cases hkept
  · rename_i hvalid
    obtain rfl := Option.some.inj hkept
    exact h id cached' hcached' hvalid c hc hfiled

theorem orInsert_exact {acc : RangeCache × Nat} {raw : Chunk} (h : acc.1.Exact st e timeline component)
    (hraw : st.physical raw.id = some raw) :
    (orInsert env timeline component acc raw).1.Exact st e timeline component ∧
      ((orInsert env timeline component acc raw).1.chunks.lookup raw.id).isSome ∧
      ∀ id, (acc.1.chunks.lookup id).isSome → ((orInsert env timeline component acc raw).1.chunks.lookup id).isSome := by
  unfold orInsert
  cases hcached : acc.1.chunks.lookup raw.id with
  | some cached => exact ⟨h, by rw [hcached]; rfl, fun _ hid => hid⟩
  | none =>
    refine ⟨⟨?_, h.handled⟩, by rw [AList.lookup_insert]; rfl, fun id hid => ?_⟩
    · intro id cached hlookup hvalid c hc hfiled
      rw [lookup_insert_ite] at hlookup
      split at hlookup
      · rename_i hsame
        rw [hsame] at hc
        obtain rfl := Option.mem_unique hraw hc
        exact ⟨env, acc.2, (Option.some.inj hlookup).symm⟩
      · exact h.pending id cached hlookup hvalid c hc hfiled
    · rw [lookup_insert_ite]
      split
      · rfl
      · exact hid

theorem foldl_orInsert_exact : ∀ (raws : List Chunk) (acc : RangeCache × Nat),
    (∀ raw ∈ raws, st.physical raw.id = some raw) → acc.1.Exact st e timeline component →
      (raws.foldl (orInsert env timeline component) acc).1.Exact st e timeline component ∧
        (∀ id, (acc.1.chunks.lookup id).isSome →
          ((raws.foldl (orInsert env timeline component) acc).1.chunks.lookup id).isSome) ∧
        ∀ raw ∈ raws, ((raws.foldl (orInsert env timeline component) acc).1.chunks.lookup raw.id).isSome
  | [], acc, _, h => ⟨h, fun _ hid => hid, fun raw hmem => absurd hmem not_mem_nil⟩
  | raw :: raws, acc, hraws, h => by
    obtain ⟨hstep, hcached, hkept⟩ := @orInsert_exact st e timeline component env acc raw h
      (hraws raw mem_cons_self)
    obtain ⟨hexact, hkept', hcached'⟩ := foldl_orInsert_exact raws _
      (fun other hother => hraws other (mem_cons_of_mem raw hother)) hstep
    rw [foldl_cons]
    refine ⟨hexact, fun id hid => hkept' id (hkept id hid), fun other hother => ?_⟩
    rcases mem_cons.mp hother with rfl | hother
    · exact hkept' _ hcached
    · exact hcached' other hother

theorem rangeEach_rows (hbounds : query.options.includeExtendedBounds = false) :
    ∀ (k : Nat) (raws cached : List Chunk),
      (∀ raw ∈ raws, raw.WellFormed ∧ (raw.componentRange query.timeline component).isSome) →
      Forall₂ (fun raw c => raw.CachedAs c query.timeline component) raws cached →
      ((rangeEach env query component k cached).1.flatMap Chunk.rows).Perm
        (raws.flatMap fun raw => (raw.rows.filter (query.asksFor component)).map (query.keep component))
  | _, [], _, _, .nil => .refl _
  | k, raw :: raws, c :: cached, hraws, .cons hc hcached => by
    obtain ⟨hwf, hrange⟩ := hraws raw mem_cons_self
    unfold rangeEach
    rw [flatMap_cons, flatMap_cons]
    refine .append (hc.rows_of_range env k hwf hrange hbounds) (rangeEach_rows hbounds _ raws cached ?_ hcached)
    exact fun other hother => hraws other (mem_cons_of_mem raw hother)

theorem flatMap_rows_filter : ∀ chunks : List Chunk,
    (chunks.filter fun c => !c.isEmpty).flatMap Chunk.rows = chunks.flatMap Chunk.rows
  | [] => rfl
  | c :: chunks => by
    by_cases hempty : c.isEmpty = true
    · rw [filter_cons_of_neg (by simp [hempty]), flatMap_cons, Chunk.rows_eq_nil_of_isEmpty hempty,
        nil_append, flatMap_rows_filter chunks]
    · rw [filter_cons_of_pos (by simp [hempty]), flatMap_cons, flatMap_cons, flatMap_rows_filter chunks]

theorem physical_of_rangeRelevantChunks (hv : st.catalog.Sound) {results : QueryResults}
    (hresults : st.rangeRelevantChunks mode query e component = some results) :
    ∀ raw ∈ results.chunks, st.physical raw.id = some raw := by
  intro raw hmem
  have hphysical : ∀ {ids : List ChunkId}, raw ∈ ids.filterMap st.physical → st.physical raw.id = some raw := by
    intro ids hids
    obtain ⟨id, -, hc⟩ := mem_filterMap.mp hids
    rw [hv.id_eq id raw hc]
    exact hc
  unfold rangeRelevantChunks at hresults
  cases hstatic : st.staticChunkIdsPerEntity.lookup (e, component) with
  | some id =>
    rw [hstatic] at hresults
    rw [chunks_of_fromChunkIds hresults] at hmem
    exact hphysical hmem
  | none =>
    rw [hstatic] at hresults
    obtain ⟨found, hfound, rfl⟩ := Option.map_eq_some_iff.mp hresults
    have hmem' := mem_of_mem_filter hmem
    rw [chunks_of_fromChunkIds hfound] at hmem'
    exact hphysical hmem'

theorem Exact.forall₂_cachedAs (h : cache.Exact st e timeline component) : ∀ raws : List Chunk,
    (∀ raw ∈ raws, (st.physical raw.id = some raw ∧ raw.FiledUnder e timeline component) ∧
      (cache.chunks.lookup raw.id).isSome) →
    Forall₂ (fun raw c => raw.CachedAs c timeline component) raws
      (raws.filterMap fun raw => cache.chunks.lookup raw.id)
  | [], _ => .nil
  | raw :: raws, hraws => by
    obtain ⟨⟨hraw, hfiled⟩, hcached⟩ := hraws raw mem_cons_self
    obtain ⟨c, hc⟩ := Option.isSome_iff_exists.mp hcached
    rw [filterMap_cons, hc]
    refine .cons (h.pending raw.id c hc ?_ raw hraw hfiled) (h.forall₂_cachedAs raws ?_)
    · rw [h.handled]
      exact not_mem_nil
    · exact fun other hother => hraws other (mem_cons_of_mem raw hother)

theorem range_spec {k : Nat} (hv : st.WellFiled) (h : cache.Exact st e query.timeline component)
    {answer : RangeCache × (List Chunk × List ChunkId) × Nat}
    (hanswer : cache.range env k mode st query e component = some answer) :
    answer.1.Exact st e query.timeline component ∧ ∃ results,
      st.rangeRelevantChunks mode query e component = some results ∧ answer.2.1.2 = results.missingVirtual ∧
        (st.staticChunkIdsPerEntity.lookup (e, component) = none →
          query.options.includeExtendedBounds = false →
            (answer.2.1.1.flatMap Chunk.rows).Perm (results.chunks.flatMap fun raw =>
              (raw.rows.filter (query.asksFor component)).map (query.keep component))) := by
  obtain ⟨results, hresults, rfl⟩ := Option.map_eq_some_iff.mp hanswer
  have hphysical := physical_of_rangeRelevantChunks hv.filed.sound hresults
  obtain ⟨hexact, -, hcached⟩ := @foldl_orInsert_exact st e query.timeline component env results.chunks
    (cache, k) hphysical h
  refine ⟨hexact, results, hresults, rfl, fun hstatic hbounds => ?_⟩
  obtain ⟨-, hmem⟩ := mem_rangeRelevantChunks_of_filed hv.filed hstatic hresults
  have hraws : ∀ raw ∈ results.chunks, raw.WellFormed ∧ (raw.componentRange query.timeline component).isSome := by
    intro raw hraw
    obtain ⟨hc, -, ⟨range, hrange, -⟩, -⟩ := (hmem raw).mp hraw
    exact ⟨(hv.filed.sound.chunk _ _ hc).wf, by rw [hrange]; rfl⟩
  -- so each chunk that the store finds has one in the cache
  have hpairs := hexact.forall₂_cachedAs results.chunks fun raw hraw =>
    ⟨⟨hphysical raw hraw, ((hmem raw).mp hraw).2.1, .inr (hraws raw hraw).2⟩, hcached raw hraw⟩
  rw [flatMap_rows_filter]
  exact rangeEach_rows hbounds _ _ _ hraws hpairs

end RangeCache

namespace ChunkStore

variable {diffs : List ChunkStoreDiff} {c before : Chunk} {lineage : ChunkDirectLineageReport} {e : EntityPath}
  {timeline : TimelineName} {component : ComponentIdentifier}

theorem mem_touchedIds (hdiff : .addition before c lineage ∈ diffs) (hstatic : before.isStatic = c.isStatic)
    (hfiled : c.FiledUnder e timeline component) : c.id ∈ touchedIds diffs ⟨e, some timeline, component⟩ := by
  obtain ⟨rfl, hcases⟩ := hfiled
  unfold touchedIds
  rw [mem_append]
  rcases hcases with ⟨hs, hcol⟩ | hrange
  · left
    refine mem_map.mpr ⟨((c.entityPath, component), c.id), mem_filter.mpr ⟨?_, decide_eq_true rfl⟩, rfl⟩
    refine mem_flatMap.mpr ⟨_, hdiff, ?_⟩
    unfold ChunkStoreDiff.staticIds
    dsimp only
    rw [if_pos (hstatic.trans hs)]
    refine mem_flatMap.mpr ⟨component, mem_keys_iff.mpr (Option.isSome_iff_exists.mp hcol), ?_⟩
    exact mem_map.mpr ⟨c.id, mem_cons_self, rfl⟩
  · right
    obtain ⟨range, hrange⟩ := Option.isSome_iff_exists.mp hrange
    refine mem_map.mpr ⟨(⟨c.entityPath, some timeline, component⟩, c.id),
      mem_filter.mpr ⟨?_, decide_eq_true rfl⟩, rfl⟩
    refine mem_flatMap.mpr ⟨_, hdiff, ?_⟩
    refine mem_flatMap.mpr ⟨((c.entityPath, timeline, component), range),
      Chunk.mem_componentRanges.mpr ⟨rfl, hrange⟩, ?_⟩
    exact mem_map.mpr ⟨c.id, mem_cons_self, rfl⟩

end ChunkStore

namespace FullQueryCache

open ChunkStore

variable {st st' : ChunkStore} {cache : FullQueryCache} {diffs : List ChunkStoreDiff} {e : EntityPath}
  {timeline : TimelineName} {component : ComponentIdentifier} {env : Env} {mode : ChunkTrackingMode}
  {query : RangeQuery}

def RangeCurrent (st : ChunkStore) (cache : FullQueryCache) : Prop :=
  ∀ e timeline component entry, cache.rangePerCacheKey.lookup ⟨e, some timeline, component⟩ = some entry →
    entry.Pending st e timeline component

theorem new_rangeCurrent : new.RangeCurrent st := by
  intro e timeline component entry h
  cases h

theorem RangeCurrent.onEvents (hv : st'.catalog.Sound) (hreports : ReportsNew st diffs st')
    (h : cache.RangeCurrent st) : (cache.onEvents diffs).RangeCurrent st' := by
  intro e timeline component entry hentry id cached hcached hvalid c hc hfiled
  unfold FullQueryCache.onEvents at hentry
  dsimp only at hentry
  rw [lookup_map] at hentry
  obtain ⟨old, hold, rfl⟩ := Option.map_eq_some_iff.mp hentry
  have hvalid' := not_or.mp (mt mem_union_iff.mpr hvalid)
  by_cases hwas : st.physical id = some c
  · exact h e timeline component old hold id cached hcached hvalid'.1 c hwas hfiled
  · obtain ⟨before, lineage, hdiff, hstatic⟩ := hreports id c hc hwas
    rw [← hv.id_eq id c hc] at hvalid'
    exact absurd (mem_touchedIds hdiff hstatic hfiled) hvalid'.2

theorem RangeCurrent.entry (h : cache.RangeCurrent st) :
    ((cache.rangePerCacheKey.lookup ⟨e, some timeline, component⟩).getD .new).handlePendingInvalidation.Exact st e
      timeline component := by
  cases hentry : cache.rangePerCacheKey.lookup ⟨e, some timeline, component⟩ with
  | none => exact RangeCache.new_pending.handle
  | some entry => exact (h e timeline component entry hentry).handle

theorem rangeComponent_spec (hv : st.WellFiled) {acc out : FullQueryCache × RangeResults × Nat}
    (h : acc.1.RangeCurrent st) (hout : rangeComponent env mode st query e acc component = some out) :
    out.1.toQueryCache = acc.1.toQueryCache ∧ out.1.RangeCurrent st ∧
      (acc.2.1.components.lookup component = none → st.staticChunkIdsPerEntity.lookup (e, component) = none →
        query.options.includeExtendedBounds = false → ∃ results,
          st.rangeRelevantChunks mode query e component = some results ∧
            (((out.2.1.components.lookup component).getD []).flatMap Chunk.rows).Perm
              (results.chunks.flatMap fun raw =>
                (raw.rows.filter (query.asksFor component)).map (query.keep component))) := by
  obtain ⟨answer, hanswer, rfl⟩ := Option.map_eq_some_iff.mp hout
  obtain ⟨hexact, results, hresults, -, hrows⟩ := RangeCache.range_spec hv h.entry hanswer
  refine ⟨rfl, ?_, fun hnone hstatic hbounds => ⟨results, hresults, ?_⟩⟩
  · intro e' timeline' component' entry hentry
    rw [lookup_insert_ite] at hentry
    split at hentry
    · rename_i hkey
      obtain ⟨rfl, htimeline, rfl⟩ := QueryCacheKey.mk.inj hkey
      cases htimeline
      rw [← Option.some.inj hentry]
      exact hexact.pending
    · exact h e' timeline' component' entry hentry
  · have hlookup : ((if answer.2.1.1.isEmpty = true then acc.2.1.components
        else AList.insert component answer.2.1.1 acc.2.1.components).lookup component).getD [] = answer.2.1.1 := by
      split
      · rename_i hempty
        rw [hnone, List.isEmpty_iff.mp hempty]
        rfl
      · rw [AList.lookup_insert]
        rfl
    rw [hlookup]
    exact hrows hstatic hbounds

end FullQueryCache

end Dalaran
