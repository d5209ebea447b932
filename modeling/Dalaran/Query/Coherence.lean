import Dalaran.Query.Coverage
import Dalaran.Store.Grown

/-
  Coherence of the latest-at cache with the store.

  A cached unit has to be what the store selects at its time: `Holds`. What the
  events of a change leave alone still holds (`Holds.covers`), with two exceptions:
  a call that lengthens the longest interval of a key makes queries reach further
  back, to chunks that may not be loaded, and a compaction that loses a column names
  the merge, which has none of the ranges to forget. A query that ignores missing
  chunks, or that a component without a cell keeps from reaching back, caches what
  does not hold in the first place. `cacheRun_coherent` says that these are all, for
  manifests that tell the truth about the chunks they name.

  Correspondence (Rust ↔ Lean):
    a recording with its query cache, fed with the events of every call ↔ `CacheRun`
-/

namespace Dalaran

open List Option I64 Assoc

namespace ChunkStore

variable {st st' : ChunkStore} {diffs : List ChunkStoreDiff} {e : EntityPath} {timeline : TimelineName}
  {component : ComponentIdentifier} {t : TimeInt} {unit : UnitChunkShared}

/-! ## What a change leaves alone -/

/-- Up to a time, a key has the same chunks, and nothing new is listed. -/
structure SameUpTo (st st' : ChunkStore) (e : EntityPath) (timeline : TimelineName)
    (component : ComponentIdentifier) (t : TimeInt) : Prop where
  stays : ∀ c, st.StartsBy e timeline component t c → st'.physical c.id = some c
  was : ∀ c, st'.StartsBy e timeline component t c → st.physical c.id = some c
  listed : ∀ id u, st'.ListedAt id (.component e timeline component .start u) → u ≤ t →
    st.ListedAt id (.component e timeline component .start u)

theorem TouchesAt.of_le {key : EntityPath × TimelineName × ComponentIdentifier} {u : TimeInt}
    (h : TouchesAt diffs key u) (hle : u ≤ t) : TouchesAt diffs key t := by
  obtain ⟨diff, hdiff, r, hr, hmin⟩ := h
  exact ⟨diff, hdiff, r, hr, hmin.trans hle⟩

theorem Covers.sameUpTo {keeps : Prop} (h : Covers keeps st diffs st') (hkeeps : keeps)
    (huntouched : ¬ TouchesAt diffs (e, timeline, component) t) :
    SameUpTo st st' e timeline component t := by
  have hchanged : ∀ {keeps : Prop} {c : Chunk}, keeps → AccountsFor keeps diffs c → c.entityPath = e →
      (∃ range, c.componentRange timeline component = some range ∧ range.min ≤ t) → False := by
    intro keeps c hkeeps hc he ⟨range, hrange, hle⟩
    have htouched := hc.temporal hkeeps timeline component range hrange
    rw [he] at htouched
    exact huntouched (TouchesAt.of_le htouched hle)
  refine ⟨fun c hc => ?_, fun c hc => ?_, fun id u hu hle => ?_⟩
  · by_contra hgone
    exact hchanged hkeeps (h.gone c.id c hc.physical hgone) hc.entityPath hc.start
  · by_contra hcame
    exact hchanged trivial (h.came c.id c hc.physical hcame) hc.entityPath hc.start
  · rcases h.listed id e timeline component u hu with hold | htouched
    · exact hold
    · exact absurd (TouchesAt.of_le htouched hle) huntouched

theorem SameUpTo.startsBy (h : SameUpTo st st' e timeline component t) {c : Chunk}
    (hc : st.StartsBy e timeline component t c) : st'.StartsBy e timeline component t c :=
  ⟨h.stays c hc, hc.entityPath, hc.start⟩

theorem SameUpTo.startsBy_of (h : SameUpTo st st' e timeline component t) {c : Chunk}
    (hc : st'.StartsBy e timeline component t c) : st.StartsBy e timeline component t c :=
  ⟨h.was c hc, hc.entityPath, hc.start⟩

variable {id : ChunkId}

theorem SameUpTo.inWindow (hv : st.catalog.Filed) (hv' : st'.catalog.Filed)
    (h : SameUpTo st st' e timeline component t) (hloaded : st.LoadedAt e timeline component t)
    (hlength : I64.ofLength (st.catalog.longest (e, timeline, component)) ≤
      I64.ofLength (st'.catalog.longest (e, timeline, component)))
    (hid : st.catalog.InWindow e timeline component t id) :
    st'.catalog.InWindow e timeline component t id := by
  obtain ⟨c, hc⟩ := isSome_iff_exists.mp (hloaded id hid)
  obtain ⟨u, hu, hut, hall⟩ := hid
  obtain ⟨hstarts, range, hrange, rfl⟩ := startsBy_of_listed hv hc hu hut
  have hcid : c.id = id := hv.sound.id_eq id c hc
  have hlisted := (h.startsBy hstarts).listed hv' hrange
  rw [hcid] at hlisted
  refine ⟨range.min, hlisted, hut, fun id' u' hu' hut' => ?_⟩
  have hold := hall id' u' (h.listed id' u' hu' hut') hut'
  rw [le_def, saturatingSub_val] at hold ⊢
  rw [le_def] at hlength
  omega

theorem SameUpTo.inWindow_of (hv : st.catalog.Filed) (hv' : st'.catalog.Filed)
    (h : SameUpTo st st' e timeline component t) (hloaded : st.LoadedAt e timeline component t)
    (hlength : I64.ofLength (st'.catalog.longest (e, timeline, component)) ≤
      I64.ofLength (st.catalog.longest (e, timeline, component)))
    (hid : st'.catalog.InWindow e timeline component t id) :
    st.catalog.InWindow e timeline component t id := by
  obtain ⟨u, hu, hut, hall⟩ := hid
  have hold := h.listed id u hu hut
  refine ⟨u, hold, hut, fun id' u' hu' hut' => ?_⟩
  -- the last start belongs to a loaded chunk, so it is still there
  obtain ⟨last, start, hlast, hlastt, hmax⟩ := exists_last_start hu' hut'
  obtain ⟨c, hc⟩ := isSome_iff_exists.mp (hloaded last (inWindow_of_last hlast hlastt hmax))
  obtain ⟨hstarts, range, hrange, rfl⟩ := startsBy_of_listed hv hc hlast hlastt
  have hbound := hall c.id range.min ((h.startsBy hstarts).listed hv' hrange) hlastt
  have hle := hmax id' u' hu' hut'
  rw [TimeInt.le_def] at hle
  rw [le_def, saturatingSub_val] at hbound ⊢
  rw [le_def] at hlength
  omega

/-- What queries reach back to stays the same, or a key with a longer interval has all its chunks
loaded. -/
def ReachKept (st st' : ChunkStore) (e : EntityPath) (timeline : TimelineName)
    (component : ComponentIdentifier) : Prop :=
  st'.catalog.longest (e, timeline, component) ≤ st.catalog.longest (e, timeline, component) ∨
    ∀ id t, st.ListedAt id (.component e timeline component .start t) → st.IsPhysical id

theorem SameUpTo.answers (hv : st.catalog.Filed) (hv' : st'.catalog.Filed)
    (h : SameUpTo st st' e timeline component t) (hkept : ReachKept st st' e timeline component)
    (hlonger : st.catalog.longest (e, timeline, component) ≤ st'.catalog.longest (e, timeline, component))
    (hloaded : st.LoadedAt e timeline component t) (hanswers : st.Answers e timeline component t unit) :
    st'.LoadedAt e timeline component t ∧ st'.Answers e timeline component t unit := by
  have hmono : I64.ofLength (st.catalog.longest (e, timeline, component)) ≤
      I64.ofLength (st'.catalog.longest (e, timeline, component)) := by
    rw [le_def, ofLength_val, ofLength_val]
    omega
  have hasked : st'.Asked e timeline component t unit.chunk :=
    ⟨h.stays _ (hanswers.asked.startsBy hv), h.inWindow hv hv' hloaded hmono hanswers.asked.inWindow⟩
  obtain ⟨index, hunit, hall⟩ := hanswers.greatest
  by_cases hsame : I64.ofLength (st'.catalog.longest (e, timeline, component)) ≤
      I64.ofLength (st.catalog.longest (e, timeline, component))
  · refine ⟨fun id hid => ?_, hasked, index, hunit, fun c index' unit' hc hc' => ?_⟩
    · have hid' := h.inWindow_of hv hv' hloaded hsame hid
      obtain ⟨c, hc⟩ := isSome_iff_exists.mp (hloaded id hid')
      obtain rfl := hv.sound.id_eq id c hc
      exact isSome_iff_exists.mpr ⟨c, h.stays c (Asked.startsBy hv ⟨hc, hid'⟩)⟩
    · refine hall c index' unit' ⟨h.was c (hc.startsBy hv'), ?_⟩ hc'
      exact h.inWindow_of hv hv' hloaded hsame hc.inWindow
  · -- a longer interval reaches loaded chunks only, and their rows are older
    have hlt : st.catalog.longest (e, timeline, component) < st'.catalog.longest (e, timeline, component) ∧
        st.catalog.longest (e, timeline, component) ≤ 9223372036854775807 := by
      rw [le_def, ofLength_val, ofLength_val] at hsame
      omega
    have hevery := hkept.resolve_left (not_le.mpr hlt.1)
    refine ⟨fun id hid => ?_, hasked, index, hunit, fun c index' unit' hc hc' => ?_⟩
    · obtain ⟨u, hu, hut, -⟩ := hid
      have hold := h.listed id u hu hut
      obtain ⟨c, hc⟩ := isSome_iff_exists.mp (hevery id u hold)
      obtain rfl := hv.sound.id_eq id c hc
      exact isSome_iff_exists.mpr ⟨c, h.stays c (startsBy_of_listed hv hc hold hut).1⟩
    · have hstarts := h.startsBy_of (hc.startsBy hv')
      by_cases hin : st.catalog.InWindow e timeline component t c.id
      · exact hall c index' unit' ⟨hstarts.physical, hin⟩ hc'
      · obtain ⟨d, index₁, unit₁, hd, hdunit, hlt'⟩ :=
          exists_greater_in_window hv hloaded hlt.2 hstarts hin hc'
        have hle := Chunk.index_le_of_rank_le (hall d index₁ unit₁ hd hdunit)
        exact Prod.Lex.le_iff.mpr (.inl (hlt'.trans_le hle))

/-! ## Cached units -/

/-- A unit is what the store selects for a key at a time, with every chunk asked for at hand. -/
def Holds (st : ChunkStore) (key : QueryCacheKey) (t : TimeInt) (unit : UnitChunkShared) : Prop :=
  match st.staticChunkIdsPerEntity.lookup (key.entityPath, key.component) with
  | some id => ∃ c index, st.physical id = some c ∧
      c.latestUnit ⟨key.timelineName, t⟩ key.component = some (index, unit)
  | none => ∃ timeline, key.timelineName = some timeline ∧ st.LoadedAt key.entityPath timeline key.component t ∧
      st.Answers key.entityPath timeline key.component t unit

variable {key : QueryCacheKey} {unit' : UnitChunkShared}

theorem holds_of_static
    (hid : st.staticChunkIdsPerEntity.lookup (key.entityPath, key.component) = some id) :
    st.Holds key t unit ↔ ∃ c index, st.physical id = some c ∧
      c.latestUnit ⟨key.timelineName, t⟩ key.component = some (index, unit) := by
  unfold Holds
  rw [hid]

theorem holds_of_temporal
    (hnone : st.staticChunkIdsPerEntity.lookup (key.entityPath, key.component) = none) :
    st.Holds key t unit ↔ ∃ timeline, key.timelineName = some timeline ∧
      st.LoadedAt key.entityPath timeline key.component t ∧
      st.Answers key.entityPath timeline key.component t unit := by
  unfold Holds
  rw [hnone]

theorem Holds.unique (h : st.Holds key t unit) (h' : st.Holds key t unit') : unit = unit' := by
  cases hid : st.staticChunkIdsPerEntity.lookup (key.entityPath, key.component) with
  | some id =>
    obtain ⟨c, index, hc, hunit⟩ := (holds_of_static hid).mp h
    obtain ⟨c', index', hc', hunit'⟩ := (holds_of_static hid).mp h'
    obtain rfl := mem_unique hc hc'
    exact congrArg Prod.snd (mem_unique hunit hunit')
  | none =>
    obtain ⟨timeline, htimeline, -, hanswers⟩ := (holds_of_temporal hid).mp h
    obtain ⟨timeline', htimeline', -, hanswers'⟩ := (holds_of_temporal hid).mp h'
    obtain rfl := mem_unique htimeline htimeline'
    exact hanswers.unique hanswers'

theorem Holds.covers {keeps : Prop} (h : st.WellFiled) (h' : st'.WellFiled) (hcovers : Covers keeps st diffs st')
    (hkeeps : keeps)
    (hkept : ∀ timeline, key.timelineName = some timeline → ReachKept st st' key.entityPath timeline key.component)
    (hstatic : ¬ TouchesStatic diffs (key.entityPath, key.component))
    (htemporal : ∀ timeline, key.timelineName = some timeline →
      ¬ TouchesAt diffs (key.entityPath, timeline, key.component) t)
    (hholds : st.Holds key t unit) : st'.Holds key t unit := by
  have hsame : (∀ id, st.staticChunkIdsPerEntity.lookup (key.entityPath, key.component) = some id →
      st.physical id ≠ none) → st'.staticChunkIdsPerEntity.lookup (key.entityPath, key.component) =
        st.staticChunkIdsPerEntity.lookup (key.entityPath, key.component) := by
    intro hphysical
    by_contra hne
    rcases hcovers.static _ hne with htouched | ⟨id, hid, habsent⟩
    · exact hstatic htouched
    · exact hphysical id hid habsent
  cases hid : st.staticChunkIdsPerEntity.lookup (key.entityPath, key.component) with
  | some id =>
    obtain ⟨c, index, hc, hunit⟩ := (holds_of_static hid).mp hholds
    have hid' := (hsame fun id' hid' => by
      rw [hid] at hid'
      rw [← some.inj hid', hc]
      exact some_ne_none c).trans hid
    refine (holds_of_static hid').mpr ⟨c, index, ?_, hunit⟩
    by_contra hgone
    exact hstatic (hcovers.static_gone h hid hc hgone)
  | none =>
    obtain ⟨timeline, htimeline, hloaded, hanswers⟩ := (holds_of_temporal hid).mp hholds
    have hid' := (hsame fun id' hid' => by
      rw [hid] at hid'
      cases hid').trans hid
    have huntouched := htemporal timeline htimeline
    have hupTo := hcovers.sameUpTo hkeeps huntouched
    refine (holds_of_temporal hid').mpr ⟨timeline, htimeline, ?_⟩
    refine hupTo.answers h.filed h'.filed (hkept timeline htimeline) ?_ hloaded hanswers
    rcases hcovers.longest key.entityPath timeline key.component with hle | hevery
    · exact hle
    · -- the chunk of the answer is still listed, so it would be touched
      have hstarts := hupTo.startsBy (hanswers.asked.startsBy h.filed)
      obtain ⟨range, hrange, hmin⟩ := hstarts.start
      exact absurd (TouchesAt.of_le (hevery _ _ (hstarts.listed h'.filed hrange)) hmin) huntouched

/-! ## What the store selects -/

def askedIds (st : ChunkStore) (query : LatestAtQuery) (e : EntityPath) (component : ComponentIdentifier) :
    List ChunkId :=
  match st.staticChunkIdsPerEntity.lookup (e, component) with
  | some id => [id]
  | none => st.latestAtChunkIds query e component

/-- The unit that a query selects with an empty cache. -/
def selectedUnit (st : ChunkStore) (query : LatestAtQuery) (e : EntityPath) (component : ComponentIdentifier) :
    Option ((TimeInt ×ₗ RowId) × UnitChunkShared) :=
  Seq.maxByKey (fun selected => selected.1)
    (((st.askedIds query e component).filterMap st.physical).filterMap (Chunk.latestUnit query component))

variable {query : LatestAtQuery} {mode : ChunkTrackingMode}

theorem latestAtRelevantChunks_eq : st.latestAtRelevantChunks mode query e component =
    QueryResults.fromChunkIds st mode (st.askedIds query e component) := by
  unfold latestAtRelevantChunks askedIds
  cases st.staticChunkIdsPerEntity.lookup (e, component) <;> rfl

theorem mem_askedIds : id ∈ st.askedIds query e component ↔ st.AsksFor query e component id := by
  unfold askedIds AsksFor
  cases st.staticChunkIdsPerEntity.lookup (e, component) with
  | some staticId => exact mem_singleton
  | none => exact mem_latestAtChunkIds

theorem fromChunkIds_of_loaded {ids : List ChunkId} (h : ∀ id ∈ ids, st.IsPhysical id) :
    QueryResults.fromChunkIds st mode ids = some ⟨ids.filterMap st.physical, []⟩ := by
  have hnone : (ids.filter fun id => !decide (st.IsPhysical id)) = [] := by
    apply filter_eq_nil_iff.mpr
    intro id hid
    simp [h id hid]
  unfold QueryResults.fromChunkIds
  rw [hnone]
  simp

theorem loaded_of_fromChunkIds {ids : List ChunkId} {results : QueryResults}
    (h : QueryResults.fromChunkIds st mode ids = some results) (hnone : results.missingVirtual = [])
    (hignore : mode = .ignore → ∀ id ∈ ids, st.IsPhysical id) : ∀ id ∈ ids, st.IsPhysical id := by
  by_contra hsome
  have hmissing : (ids.filter fun id => !decide (st.IsPhysical id)) ≠ [] := by
    intro hnil
    apply hsome
    intro id hid
    have hphysical := filter_eq_nil_iff.mp hnil id hid
    simpa using hphysical
  unfold QueryResults.fromChunkIds at h
  dsimp only at h
  split at h
  · cases h
  · rename_i hpanic
    rw [← some.inj h] at hnone
    cases mode with
    | ignore => exact hsome (hignore rfl)
    | report => exact hmissing (by simpa using hnone)
    | reportTransient => exact hmissing (by simpa using hnone)
    | panicOnMissing => exact hpanic ⟨rfl, hmissing⟩

theorem latestUnit_of_static {c : Chunk} (hs : c.isStatic = true) (timeline : Option TimelineName)
    (t t' : TimeInt) : c.latestUnit ⟨timeline, t⟩ component = c.latestUnit ⟨timeline, t'⟩ component := by
  unfold Chunk.latestUnit Chunk.latestAt
  rw [hs]
  rfl

theorem Holds.selected (hv : st.catalog.Filed) (h : st.Holds ⟨e, query.timeline, component⟩ query.at_ unit) :
    (∀ id ∈ st.askedIds query e component, st.IsPhysical id) ∧
      ∃ index, st.selectedUnit query e component = some (index, unit) := by
  obtain ⟨queryTimeline, at_⟩ := query
  unfold selectedUnit askedIds
  cases hid : st.staticChunkIdsPerEntity.lookup (e, component) with
  | some id =>
    obtain ⟨c, index, hc, hunit⟩ := (holds_of_static hid).mp h
    refine ⟨fun id' hid' => ?_, index, ?_⟩
    · rw [mem_singleton.mp hid']
      exact isSome_of_eq_some hc
    · dsimp only at hunit ⊢
      rw [filterMap_cons_some hc, filterMap_nil, filterMap_cons_some hunit, filterMap_nil]
      rfl
  | none =>
    obtain ⟨timeline, htimeline, hloaded, hanswers⟩ := (holds_of_temporal hid).mp h
    obtain rfl : queryTimeline = some timeline := htimeline
    refine ⟨fun id' hid' => ?_, ?_⟩
    · obtain ⟨timeline', htimeline', hwindow⟩ := mem_latestAtChunkIds.mp hid'
      cases htimeline'
      exact hloaded id' hwindow
    · obtain ⟨index, hunit, -⟩ := hanswers.greatest
      exact ⟨index, (walkUnit_eq_some_iff hv).mpr ⟨hanswers, hunit⟩⟩

/-- What a query does not get wrong: it does not ignore a chunk it misses, and it reaches back. -/
structure Answerable (st : ChunkStore) (mode : ChunkTrackingMode) (query : LatestAtQuery) (e : EntityPath)
    (component : ComponentIdentifier) : Prop where
  complete : mode = .ignore → ∀ id ∈ st.askedIds query e component, st.IsPhysical id
  reaches : st.staticChunkIdsPerEntity.lookup (e, component) = none → ∀ timeline,
    query.timeline = some timeline → st.LoadedAt e timeline component query.at_ →
      st.ReachesBack e timeline component query.at_

theorem holds_of_selected (h : st.WellFiled) (hquery : st.Answerable mode query e component)
    (hloaded : ∀ id ∈ st.askedIds query e component, st.IsPhysical id) {index : TimeInt ×ₗ RowId}
    (hselected : st.selectedUnit query e component = some (index, unit)) :
    st.Holds ⟨e, query.timeline, component⟩ query.at_ unit ∧
      st.Holds ⟨e, query.timeline, component⟩ (ofLex index).1 unit := by
  obtain ⟨queryTimeline, at_⟩ := query
  unfold selectedUnit at hselected
  unfold askedIds at hselected hloaded
  cases hid : st.staticChunkIdsPerEntity.lookup (e, component) with
  | some id =>
    rw [hid] at hselected hloaded
    obtain ⟨c, hc⟩ := isSome_iff_exists.mp (hloaded id mem_cons_self)
    have hc' : st.physical id = some c := hc
    rw [filterMap_cons_some hc', filterMap_nil] at hselected
    have hstatic := (h.served e component id c hid hc').static
    cases hunit : c.latestUnit ⟨queryTimeline, at_⟩ component with
    | none =>
      rw [filterMap_cons_none hunit] at hselected
      cases hselected
    | some selected =>
      rw [filterMap_cons_some hunit, filterMap_nil] at hselected
      obtain rfl : selected = (index, unit) := some.inj hselected
      refine ⟨(holds_of_static hid).mpr ⟨c, index, hc', hunit⟩, (holds_of_static hid).mpr ⟨c, index, hc', ?_⟩⟩
      exact (latestUnit_of_static hstatic queryTimeline _ _).trans hunit
  | none =>
    rw [hid] at hselected hloaded
    cases queryTimeline with
    | none => cases hselected
    | some timeline =>
      have hwalk : st.walkUnit ⟨some timeline, at_⟩ e component = some (index, unit) := hselected
      obtain ⟨hanswers, hunit⟩ := (walkUnit_eq_some_iff h.filed).mp hwalk
      have hloadedAt : st.LoadedAt e timeline component at_ := fun id hwindow =>
        hloaded id (mem_latestAtChunkIds.mpr ⟨timeline, rfl, hwindow⟩)
      have hreach := hquery.reaches hid timeline rfl hloadedAt
      obtain ⟨hloaded', hanswers'⟩ := hanswers.at_data_time h.filed hloadedAt hreach hunit
      exact ⟨(holds_of_temporal hid).mpr ⟨timeline, rfl, hloadedAt, hanswers⟩,
        (holds_of_temporal hid).mpr ⟨timeline, rfl, hloaded', hanswers'⟩⟩

end ChunkStore

/-! ## The cache of a key -/

namespace LatestAtCache

open ChunkStore

variable {st st' : ChunkStore} {key : QueryCacheKey} {cache : LatestAtCache} {query : LatestAtQuery}
  {mode : ChunkTrackingMode} {e : EntityPath} {component : ComponentIdentifier}

/-- Every cached unit holds. -/
def Exact (st : ChunkStore) (key : QueryCacheKey) (cache : LatestAtCache) : Prop :=
  ∀ t cached, cache.perQueryTime.lookup t = some cached → st.Holds key t cached.unit

/-- Every cached unit holds that no pending invalidation concerns. -/
def Pending (st : ChunkStore) (key : QueryCacheKey) (cache : LatestAtCache) : Prop :=
  ∀ t cached, cache.perQueryTime.lookup t = some cached → (∀ p ∈ cache.pendingInvalidations, t < p) →
    st.Holds key t cached.unit

theorem new_exact : new.Exact st key := by
  intro t cached h
  cases h

theorem Exact.pending (h : cache.Exact st key) : cache.Pending st key := fun t cached hcached _ => h t cached hcached

theorem handlePendingInvalidation_lookup {t : TimeInt} {cached : LatestAtCachedChunk}
    (hcached : cache.handlePendingInvalidation.perQueryTime.lookup t = some cached) :
    cache.perQueryTime.lookup t = some cached ∧ ∀ p ∈ cache.pendingInvalidations, t < p := by
  unfold handlePendingInvalidation at hcached
  cases holdest : cache.pendingInvalidations.elems.head? with
  | none =>
    rw [holdest] at hcached
    refine ⟨hcached, fun p hp => ?_⟩
    rw [OrdSet.mem_def, List.head?_eq_none_iff.mp holdest] at hp
    cases hp
  | some oldest =>
    rw [holdest] at hcached
    rw [lookup_filterMap] at hcached
    obtain ⟨cached', hcached', hkept⟩ := bind_eq_some_iff.mp hcached
    split at hkept
    · cases hkept
    · rename_i hlt
      cases hkept
      refine ⟨hcached', fun p hp => ?_⟩
      have hle : oldest ≤ p := by
        obtain ⟨rest, hrest⟩ := List.head?_eq_some_iff.mp holdest
        have hsorted := cache.pendingInvalidations.sorted
        rw [OrdSet.mem_def, hrest] at hp
        rw [hrest, pairwise_cons] at hsorted
        rcases mem_cons.mp hp with heq | hmem
        · exact heq.ge
        · exact (hsorted.1 p hmem).le
      exact (not_le.mp fun hle' => hlt (decide_eq_true hle')).trans_le hle

theorem Pending.handle (h : cache.Pending st key) : cache.handlePendingInvalidation.Exact st key := by
  intro t cached hcached
  obtain ⟨hold, hpending⟩ := handlePendingInvalidation_lookup hcached
  exact h t cached hold hpending

theorem splitOff_lookup (n : Nat) : (cache.splitOff n).pendingInvalidations = cache.pendingInvalidations ∧
    ∀ t cached, (cache.splitOff n).perQueryTime.lookup t = some cached →
      cache.perQueryTime.lookup t = some cached := by
  unfold LatestAtCache.splitOff
  split
  · exact ⟨rfl, fun t cached hcached => hcached⟩
  · refine ⟨rfl, fun t cached hcached => ?_⟩
    rw [lookup_filterMap] at hcached
    obtain ⟨cached', hcached', hkept⟩ := bind_eq_some_iff.mp hcached
    split at hkept
    · cases hkept
      exact hcached'
    · cases hkept

theorem Pending.splitOff (h : cache.Pending st key) (n : Nat) : (cache.splitOff n).Pending st key := by
  intro t cached hcached hpending
  obtain ⟨hsame, hkept⟩ := @splitOff_lookup cache n
  rw [hsame] at hpending
  exact h t cached (hkept t cached hcached) hpending

theorem orInsert_lookup {time t : TimeInt} {new cached : LatestAtCachedChunk}
    (h : (cache.orInsert time new).perQueryTime.lookup t = some cached) :
    cache.perQueryTime.lookup t = some cached ∨ t = time ∧ cached = new := by
  unfold orInsert at h
  split at h
  · exact .inl h
  · dsimp only at h
    rw [lookup_insert_ite] at h
    split at h
    · exact .inr ⟨‹_›, (some.inj h).symm⟩
    · exact .inl h

theorem Exact.orInsert (h : cache.Exact st key) {time : TimeInt} {new : LatestAtCachedChunk}
    (hnew : st.Holds key time new.unit) : (cache.orInsert time new).Exact st key := by
  intro t cached hcached
  rcases orInsert_lookup hcached with hold | ⟨rfl, rfl⟩
  · exact h t cached hold
  · exact hnew

theorem Exact.latestAt (hv : st.WellFiled) (h : cache.Exact st ⟨e, query.timeline, component⟩)
    (hquery : st.Answerable mode query e component) :
    (cache.latestAt mode st query e component).map (fun answer => answer.2) =
        (new.latestAt mode st query e component).map (fun answer => answer.2) ∧
      ∀ answer, cache.latestAt mode st query e component = some answer →
        answer.1.Exact st ⟨e, query.timeline, component⟩ := by
  have hnew : new.perQueryTime.lookup query.at_ = none := rfl
  cases hcached : cache.perQueryTime.lookup query.at_ with
  | some cached =>
    obtain ⟨hloaded, index, hselected⟩ := (h query.at_ cached hcached).selected hv.filed
    unfold LatestAtCache.latestAt
    rw [hcached, hnew, latestAtRelevantChunks_eq, fromChunkIds_of_loaded hloaded]
    unfold selectedUnit at hselected
    refine ⟨?_, fun answer hanswer => ?_⟩
    · simp only [map_some, ne_eq, not_true_eq_false, if_false, hselected]
      rfl
    · rw [← some.inj hanswer]
      exact h
  | none =>
    unfold LatestAtCache.latestAt
    rw [hcached, hnew, latestAtRelevantChunks_eq]
    cases hresults : QueryResults.fromChunkIds st mode (st.askedIds query e component) with
    | none => exact ⟨rfl, fun answer hanswer => by cases hanswer⟩
    | some results =>
      simp only [map_some]
      by_cases hmissing : results.missingVirtual = []
      · have hloaded := loaded_of_fromChunkIds hresults hmissing hquery.complete
        rw [fromChunkIds_of_loaded hloaded] at hresults
        cases hresults
        simp only [ne_eq, not_true_eq_false, if_false]
        cases hselected : st.selectedUnit query e component with
        | none =>
          unfold selectedUnit at hselected
          simp only [hselected]
          exact ⟨trivial, fun answer hanswer => by rw [← some.inj hanswer]; exact h⟩
        | some selected =>
          obtain ⟨index, unit⟩ := selected
          obtain ⟨hholds, hdata⟩ := holds_of_selected hv hquery hloaded hselected
          unfold selectedUnit at hselected
          simp only [hselected]
          -- a unit cached at the time of the row is the selected one
          have hunit : ((cache.perQueryTime.lookup (ofLex index).1).getD ⟨unit, false⟩).unit = unit := by
            cases hcached' : cache.perQueryTime.lookup (ofLex index).1 with
            | none => rfl
            | some cached' => exact (h _ cached' hcached').unique hdata
          refine ⟨?_, fun answer hanswer => ?_⟩
          · simp only [Option.some.injEq, Prod.mk.injEq, and_true, hunit]
            rfl
          · rw [← some.inj hanswer]
            dsimp only
            split
            · refine (h.orInsert hdata).orInsert ?_
              dsimp only
              rw [hunit]
              exact hholds
            · exact h.orInsert hdata
      · simp only [ne_eq, hmissing, not_false_eq_true, if_true]
        exact ⟨trivial, fun answer hanswer => by rw [← some.inj hanswer]; exact h⟩

end LatestAtCache

/-! ## The smallest time touched -/

theorem foldl_min_le (key : QueryCacheKey) :
    ∀ (ranges : List ((EntityPath × TimelineName × ComponentIdentifier) × AbsoluteTimeRange))
      (times : Assoc QueryCacheKey TimeInt) {start : TimeInt},
      ((∃ m, times.lookup key = some m ∧ m ≤ start) ∨
        ∃ p ∈ ranges, (⟨p.1.1, some p.1.2.1, p.1.2.2⟩ : QueryCacheKey) = key ∧ p.2.min ≤ start) →
      ∃ m, (ranges.foldl (fun times e => Assoc.upsert times ⟨e.1.1, some e.1.2.1, e.1.2.2⟩ e.2.min
        (min · e.2.min)) times).lookup key = some m ∧ m ≤ start
  | [], times, start, h => by
    rcases h with hm | ⟨p, hp, -⟩
    · exact hm
    · cases hp
  | p :: ranges, times, start, h => by
    apply foldl_min_le key ranges
    rw [lookup_upsert]
    by_cases hkey : key = ⟨p.1.1, some p.1.2.1, p.1.2.2⟩
    · rw [if_pos hkey]
      rcases h with ⟨m, hm, hle⟩ | ⟨q, hq, hqkey, hle⟩
      · rw [← hkey, hm]
        exact .inl ⟨_, rfl, (min_le_left m _).trans hle⟩
      · rcases mem_cons.mp hq with rfl | hq
        · exact .inl ⟨_, rfl, (min_le_right _ _).trans hle⟩
        · exact .inr ⟨q, hq, hqkey, hle⟩
    · rw [if_neg hkey]
      rcases h with hm | ⟨q, hq, hqkey, hle⟩
      · exact .inl hm
      · rcases mem_cons.mp hq with rfl | hq
        · exact absurd hqkey.symm hkey
        · exact .inr ⟨q, hq, hqkey, hle⟩

theorem temporalLatestAt_le {diffs : List ChunkStoreDiff} {e : EntityPath} {timeline : TimelineName}
    {component : ComponentIdentifier} {t : TimeInt} (h : TouchesAt diffs (e, timeline, component) t) :
    ∃ m, (temporalLatestAt diffs).lookup ⟨e, some timeline, component⟩ = some m ∧ m ≤ t := by
  obtain ⟨diff, hdiff, r, hr, hle⟩ := h
  exact foldl_min_le _ _ _ (.inr ⟨_, mem_flatMap.mpr ⟨diff, hdiff, hr⟩, rfl, hle⟩)

/-! ## The cache of a store -/

namespace QueryCache

open ChunkStore

variable {st st' : ChunkStore} {cache : QueryCache} {query : LatestAtQuery} {mode : ChunkTrackingMode}
  {e : EntityPath} {component : ComponentIdentifier} {diffs : List ChunkStoreDiff}

/-- Every cached unit of a key holds that no pending invalidation concerns. -/
def CurrentAt (st : ChunkStore) (cache : QueryCache) (key : QueryCacheKey) : Prop :=
  ∀ entry, cache.latestAtPerCacheKey.lookup key = some entry → entry.Pending st key

/-- The units of every key do. -/
def Current (st : ChunkStore) (cache : QueryCache) : Prop := ∀ key, cache.CurrentAt st key

variable {key : QueryCacheKey}

theorem new_current : new.Current st := by
  intro key entry h
  cases h

theorem onEvents_lookup {entry' : LatestAtCache}
    (h : (cache.onEvents diffs).latestAtPerCacheKey.lookup key = some entry') :
    ∃ entry, cache.latestAtPerCacheKey.lookup key = some entry ∧ entry'.perQueryTime = entry.perQueryTime ∧
      (∀ p ∈ entry.pendingInvalidations, p ∈ entry'.pendingInvalidations) ∧
      (TouchesStatic diffs (key.entityPath, key.component) → TimeInt.STATIC ∈ entry'.pendingInvalidations) ∧
      ∀ m, (temporalLatestAt diffs).lookup key = some m → m ∈ entry'.pendingInvalidations := by
  unfold QueryCache.onEvents at h
  rw [lookup_map, lookup_map] at h
  obtain ⟨marked, hmarked, rfl⟩ := map_eq_some_iff.mp h
  obtain ⟨entry, hentry, hmarked⟩ := map_eq_some_iff.mp hmarked
  have hstatic : marked.perQueryTime = entry.perQueryTime ∧
      (∀ p ∈ entry.pendingInvalidations, p ∈ marked.pendingInvalidations) ∧
      (TouchesStatic diffs (key.entityPath, key.component) → TimeInt.STATIC ∈ marked.pendingInvalidations) := by
    rw [← hmarked]
    split
    · exact ⟨rfl, fun p hp => OrdSet.mem_insert.mpr (.inr hp), fun _ => OrdSet.mem_insert.mpr (.inl rfl)⟩
    · rename_i huntouched
      exact ⟨rfl, fun p hp => hp, fun htouched => absurd (mem_flatMap.mpr htouched) huntouched⟩
  obtain ⟨hentries, hpending, htouched⟩ := hstatic
  refine ⟨entry, hentry, ?_⟩
  cases hm : (temporalLatestAt diffs).lookup key with
  | none => exact ⟨hentries, hpending, htouched, fun m hm => by cases hm⟩
  | some least =>
    refine ⟨hentries, fun p hp => OrdSet.mem_insert.mpr (.inr (hpending p hp)), fun hyes => ?_, fun m hm => ?_⟩
    · exact OrdSet.mem_insert.mpr (.inr (htouched hyes))
    · rw [← some.inj hm]
      exact OrdSet.mem_insert.mpr (.inl rfl)

theorem Current.onEvents {keeps : Prop} (h : st.WellFiled) (h' : st'.WellFiled)
    (hcovers : Covers keeps st diffs st') (hkeeps : keeps)
    (hkept : ∀ e timeline component, ReachKept st st' e timeline component) (hcache : cache.Current st) :
    (cache.onEvents diffs).Current st' := by
  intro key entry' hentry' t cached hcached hpending
  obtain ⟨entry, hentry, hentries, hstill, hstatic, htemporal⟩ := onEvents_lookup hentry'
  rw [hentries] at hcached
  have hholds := hcache key entry hentry t cached hcached fun p hp => hpending p (hstill p hp)
  refine hholds.covers h h' hcovers hkeeps (fun timeline _ => hkept _ timeline _) (fun htouched => ?_) ?_
  · exact absurd (hpending _ (hstatic htouched)) (not_lt.mpr (I64.MIN_le t.asI64))
  · intro timeline htimeline htouched
    obtain ⟨m, hm, hle⟩ := temporalLatestAt_le htouched
    rw [← htimeline] at hm
    exact absurd (hpending m (htemporal m hm)) (not_lt.mpr hle)

theorem Current.gc (h : cache.Current st) (splitPoint : QueryCacheKey → Nat) : (cache.gc splitPoint).Current st := by
  intro key entry' hentry'
  unfold QueryCache.gc at hentry'
  dsimp only at hentry'
  rw [lookup_map] at hentry'
  obtain ⟨entry, hentry, rfl⟩ := map_eq_some_iff.mp hentry'
  exact (h key entry hentry).splitOff _

theorem CurrentAt.entry (h : cache.CurrentAt st key) :
    ((cache.latestAtPerCacheKey.lookup key).getD .new).handlePendingInvalidation.Exact st key := by
  cases hentry : cache.latestAtPerCacheKey.lookup key with
  | none => exact LatestAtCache.new_exact.pending.handle
  | some entry => exact (h entry hentry).handle

theorem CurrentAt.coherent (hv : st.WellFiled) (h : cache.CurrentAt st ⟨e, query.timeline, component⟩)
    (hquery : st.Answerable mode query e component) :
    (cache.latestAtComponent mode st query e component).map (fun answer => answer.2) =
      (LatestAtCache.new.latestAt mode st query e component).map fun answer => answer.2 := by
  rw [← (h.entry.latestAt hv hquery).1]
  unfold latestAtComponent
  rw [Option.map_map]
  rfl

theorem CurrentAt.answered (hv : st.WellFiled) (h : cache.CurrentAt st key)
    (hquery : key = ⟨e, query.timeline, component⟩ → st.Answerable mode query e component)
    {answer : QueryCache × Option UnitChunkShared × List ChunkId}
    (hanswer : cache.latestAtComponent mode st query e component = some answer) :
    answer.1.CurrentAt st key := by
  obtain ⟨result, hresult, rfl⟩ := map_eq_some_iff.mp hanswer
  intro entry hentry
  rw [lookup_insert_ite] at hentry
  split at hentry
  · rename_i hkey
    cases hentry
    subst hkey
    exact ((h.entry.latestAt hv (hquery rfl)).2 result hresult).pending
  · exact h entry hentry

end QueryCache

/-! ## Runs -/

/-- A call lengthens the longest interval of a key only where all of the key's chunks are loaded. -/
def Call.KeepsReach (st : ChunkStore) (call : Call) : Prop :=
  ∀ e timeline component, ChunkStore.ReachKept st (call.run st).1 e timeline component

/-- A manifest tells the truth about the chunks it names, no interval is lengthened past a missing
chunk, and no compaction loses a column. -/
structure Call.Coherent (st : ChunkStore) (call : Call) : Prop where
  agrees : call.AgreesWithChunks st
  reach : call.KeepsReach st
  joins : call.JoinsColumns st

namespace ChunkStore

inductive CacheRun (allowedCall : ChunkStore → Call → Prop)
    (allowedQuery : ChunkStore → ChunkTrackingMode → LatestAtQuery → EntityPath → ComponentIdentifier → Prop) :
    ChunkStore → QueryCache → Prop
  | new (config : ChunkSplitConfig) : CacheRun allowedCall allowedQuery (.new config) .new
  | call {st : ChunkStore} {cache : QueryCache} {call : Call} (h : CacheRun allowedCall allowedQuery st cache)
      (hcall : call.Possible st) (hallowed : allowedCall st call) :
      CacheRun allowedCall allowedQuery (call.run st).1 (cache.onEvents (call.run st).2)
  | query {st : ChunkStore} {cache : QueryCache} {mode : ChunkTrackingMode} {query : LatestAtQuery}
      {e : EntityPath} {component : ComponentIdentifier}
      {answer : QueryCache × Option UnitChunkShared × List ChunkId}
      (h : CacheRun allowedCall allowedQuery st cache) (hallowed : allowedQuery st mode query e component)
      (hanswer : cache.latestAtComponent mode st query e component = some answer) :
      CacheRun allowedCall allowedQuery st answer.1
  | gc {st : ChunkStore} {cache : QueryCache} (h : CacheRun allowedCall allowedQuery st cache)
      (splitPoint : QueryCacheKey → Nat) : CacheRun allowedCall allowedQuery st (cache.gc splitPoint)

variable {st : ChunkStore} {cache : QueryCache} {mode : ChunkTrackingMode} {query : LatestAtQuery}
  {e : EntityPath} {component : ComponentIdentifier}

theorem new_wellFiled (config : ChunkSplitConfig) : (ChunkStore.new config).WellFiled := by
  have hnone : ∀ id c, (ChunkStore.new config).catalog.chunks id ≠ some c := fun id c hc => by cases hc
  refine ⟨⟨⟨fun id c hc => absurd hc (hnone id c), fun id c hc => absurd hc (hnone id c)⟩, fun id c s hc => ?_,
    fun id c e timeline component t hc => ?_, fun id c timeline component range hc => ?_⟩,
    fun e component id c hid => ?_⟩
  · exact absurd hc (hnone id c)
  · exact absurd hc (hnone id c)
  · exact absurd hc (hnone id c)
  · cases hid

theorem Grown.coherent (h : st.Grown) {c : ValidChunk} (hnew : ¬ st.IsPhysical c.id) (bound : Nat) :
    (Call.insertChunk (.countingFrom bound) c).Coherent st := by
  have hlisted : ∀ id s, st.ListedAt id s → st.IsPhysical id := by
    intro id s hs
    obtain ⟨c, hc, -⟩ := h.listedAt_iff.mp hs
    exact isSome_of_eq_some hc
  refine ⟨fun _ _ => ⟨fun e timeline component t hs => ?_, fun e component hid => ?_⟩,
    fun e timeline component => .inr fun id t hs => hlisted _ _ hs,
    fun _ _ _ _ _ => Chunk.joinsColumns_countingFrom bound _ _⟩
  · exact absurd (hlisted c.id (.component e timeline component .start t) hs) hnew
  · obtain ⟨d, hd, -⟩ := h.settled.points e component c.id hid
    exact absurd (isSome_of_eq_some hd) hnew

theorem CacheRun.current
    (h : CacheRun (fun st call => call.Coherent st) Answerable st cache) :
    st.WellFiled ∧ cache.Current st := by
  induction h with
  | new config => exact ⟨new_wellFiled config, QueryCache.new_current⟩
  | call _ hcall hallowed ih =>
    have hv := Call.run_wellFiled ih.1 hcall hallowed.agrees
    exact ⟨hv, ih.2.onEvents ih.1 hv (Call.run_covers ih.1 hcall) hallowed.joins hallowed.reach⟩
  | query _ hallowed hanswer ih =>
    exact ⟨ih.1, fun key => (ih.2 key).answered ih.1 (fun _ => hallowed) hanswer⟩
  | gc _ splitPoint ih => exact ⟨ih.1, ih.2.gc splitPoint⟩

/-- In a run whose manifests tell the truth, whose calls lengthen no interval past a missing chunk and
lose no column in a compaction, and whose queries ignore no missing chunk and reach back, every such query
answers as with an empty cache. -/
theorem cacheRun_coherent
    (h : CacheRun (fun st call => call.Coherent st) Answerable st cache)
    (hquery : st.Answerable mode query e component) :
    (cache.latestAtComponent mode st query e component).map (fun answer => answer.2) =
      (LatestAtCache.new.latestAt mode st query e component).map fun answer => answer.2 :=
  (h.current.2 _).coherent h.current.1 hquery

def insertAround : Call := .insertChunk (.countingFrom 100) aroundChunk

def aroundStore : ChunkStore := (insertAround.run (.new ⟨0, 0, 0⟩)).1

def insertBetween : Call := .insertChunk (.countingFrom 100) betweenChunk

def betweenStore : ChunkStore := (insertBetween.run aroundStore).1

def atTen : LatestAtQuery := ⟨some ⟨"frame"⟩, ⟨.sat 10⟩⟩

theorem answerable_of_short {t : TimeInt}
    (hlength : st.catalog.longest (e, ⟨"frame"⟩, component) ≤ 9223372036854775807) :
    st.Answerable .report ⟨some ⟨"frame"⟩, t⟩ e component := by
  refine ⟨nofun, fun _ timeline htimeline _ => ?_⟩
  cases htimeline
  exact .inl hlength

/-- The cached row of the first chunk gives way to the one of the second. -/
theorem cacheRun_coherent_between :
    ∃ first again, (QueryCache.new.onEvents (insertAround.run (.new ⟨0, 0, 0⟩)).2).latestAtComponent .report
        aroundStore atTen ⟨["robot"]⟩ ⟨"position"⟩ = some first ∧
      (first.1.onEvents (insertBetween.run aroundStore).2).latestAtComponent .report betweenStore
        atTen ⟨["robot"]⟩ ⟨"position"⟩ = some again ∧
      first.2.1.map (fun unit => (unit.chunk.id, unit.row)) = some (1, 0) ∧
      again.2.1.map (fun unit => (unit.chunk.id, unit.row)) = some (2, 1) ∧
      some again.2 = (LatestAtCache.new.latestAt .report betweenStore atTen ⟨["robot"]⟩
        ⟨"position"⟩).map fun answer => answer.2 := by
  have hgrown : aroundStore.Grown := @Reachable.step _ _
    (.insertChunk (.countingFrom 100) aroundChunk) (.new _) fresh_countingFrom rfl
  have haround : CacheRun (fun st call => call.Coherent st) Answerable aroundStore
      (QueryCache.new.onEvents (insertAround.run (.new ⟨0, 0, 0⟩)).2) := @CacheRun.call _ _ _ _ insertAround (.new _)
    fresh_countingFrom (Grown.coherent (.new _) (by decide) _)
  have hfirst : ((QueryCache.new.onEvents (insertAround.run (.new ⟨0, 0, 0⟩)).2).latestAtComponent .report
      aroundStore atTen ⟨["robot"]⟩ ⟨"position"⟩).map (fun answer =>
        answer.2.1.map fun unit => (unit.chunk.id, unit.row)) = some (some (1, 0)) := by decide
  obtain ⟨first, hfirst, hunit⟩ := map_eq_some_iff.mp hfirst
  have hbetween : CacheRun (fun st call => call.Coherent st) Answerable betweenStore
      (first.1.onEvents (insertBetween.run aroundStore).2) := @CacheRun.call _ _ _ _ insertBetween
    (.query haround (answerable_of_short (by decide)) hfirst)
    fresh_countingFrom (hgrown.coherent (by decide) _)
  have hquery : betweenStore.Answerable .report atTen ⟨["robot"]⟩ ⟨"position"⟩ :=
    answerable_of_short (by decide)
  have hagain := cacheRun_coherent hbetween hquery
  have hfresh : ((LatestAtCache.new.latestAt .report betweenStore atTen ⟨["robot"]⟩
      ⟨"position"⟩).map fun answer => answer.2).map (fun answer =>
        answer.1.map fun unit => (unit.chunk.id, unit.row)) = some (some (2, 1)) := by decide
  obtain ⟨found, hfound, hrow⟩ := map_eq_some_iff.mp hfresh
  rw [hfound] at hagain
  obtain ⟨again, hanswer, rfl⟩ := map_eq_some_iff.mp hagain
  exact ⟨first, again, hfirst, hanswer, hunit, hrow, hfound.symm⟩

def partlyLoadedStore : ChunkStore :=
  (Op.insertChunk (.countingFrom 100) ⟨positionsChunk 2 [5] [4], rfl⟩).run announcedStore

/-- A query that ignores the missing chunk caches the row of the other one, and a query that would
report it gets that row. -/
theorem partlyLoadedStore_not_coherent :
    ∃ cache, CacheRun (fun _ _ => True) (fun _ _ _ _ _ => True) partlyLoadedStore cache ∧
      (cache.latestAtComponent .report partlyLoadedStore ⟨some ⟨"frame"⟩, ⟨.sat 4⟩⟩ ⟨["robot"]⟩
          ⟨"position"⟩).map (fun answer => answer.2) ≠
        (LatestAtCache.new.latestAt .report partlyLoadedStore ⟨some ⟨"frame"⟩, ⟨.sat 4⟩⟩ ⟨["robot"]⟩
          ⟨"position"⟩).map fun answer => answer.2 := by
  have hannounced := @CacheRun.call (fun _ _ => True) (fun _ _ _ _ _ => True) _ _
    (.insertDlrManifest interleavedManifest) (.new ⟨0, 0, 0⟩) trivial trivial
  have hloaded := @CacheRun.call (fun _ _ => True) (fun _ _ _ _ _ => True) _ _
    (.insertChunk (.countingFrom 100) ⟨positionsChunk 2 [5] [4], rfl⟩) hannounced
    fresh_countingFrom trivial
  refine ⟨_, @CacheRun.query (fun _ _ => True) (fun _ _ _ _ _ => True) _ _ .ignore
    ⟨some ⟨"frame"⟩, ⟨.sat 4⟩⟩ ⟨["robot"]⟩ ⟨"position"⟩ _ hloaded trivial rfl, fun h => ?_⟩
  have hmissing := congrArg (Option.map fun answer => answer.2) h
  revert hmissing
  decide

end ChunkStore

end Dalaran
