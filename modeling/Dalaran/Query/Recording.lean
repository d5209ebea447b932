import Dalaran.Query.Range

/-
  A recording: a chunk store and its query cache.

  The cache hears of the events of every call, queries fill it, and collections
  forget parts of it. Memoised units can be out of date (`Query/Coherence`), but a
  temporal unit is never left of a component that has static data
  (`QueryCache.Settled`). `RecordingRun.spec` says so after every run whose
  manifests agree with the chunks they name, and that the range caches are coherent.

  Correspondence (Rust ↔ Lean):
    a `ChunkStore` and the `QueryCache` that subscribes to it ↔ `RecordingRun`
-/

namespace Dalaran

open List Option FullQueryCache

/-! ## Units -/

namespace ChunkStore

variable {st st' : ChunkStore} {e : EntityPath} {component : ComponentIdentifier} {unit : UnitChunkShared}
  {query : LatestAtQuery} {mode : ChunkTrackingMode} {index : TimeInt ×ₗ RowId}

structure Selectable (st : ChunkStore) (e : EntityPath) (component : ComponentIdentifier)
    (unit : UnitChunkShared) : Prop where
  wf : unit.chunk.WellFormed
  temporal : unit.chunk.isStatic = false → st.staticChunkIdsPerEntity.lookup (e, component) = none

def Offers (st : ChunkStore) (mode : ChunkTrackingMode) (query : LatestAtQuery) (e : EntityPath)
    (component : ComponentIdentifier) (unit : UnitChunkShared) : Prop :=
  ∃ results c index, st.latestAtRelevantChunks mode query e component = some results ∧
    c ∈ results.chunks ∧ c.latestUnit query component = some (index, unit)

theorem Offers.selectable (hv : st.WellFiled) (h : st.Offers mode query e component unit) :
    st.Selectable e component unit := by
  obtain ⟨results, c, index, hresults, hc, hunit⟩ := h
  obtain ⟨rfl, -⟩ := Chunk.latestUnit_eq_some_iff.mp hunit
  rw [latestAtRelevantChunks_eq] at hresults
  rw [chunks_of_fromChunkIds hresults] at hc
  obtain ⟨id, hid, hphysical⟩ := mem_filterMap.mp hc
  refine ⟨(hv.filed.sound.chunk id _ hphysical).wf, fun htemporal => ?_⟩
  cases hstatic : st.staticChunkIdsPerEntity.lookup (e, component) with
  | none => rfl
  | some staticId =>
    unfold askedIds at hid
    rw [hstatic] at hid
    rw [mem_singleton.mp hid] at hphysical
    have hserves := (hv.served e component staticId _ hstatic hphysical).static
    rw [htemporal] at hserves
    cases hserves

theorem Selectable.covers {keeps : Prop} {diffs : List ChunkStoreDiff} (hcovers : Covers keeps st diffs st')
    (huntouched : ¬ TouchesStatic diffs (e, component)) (h : st.Selectable e component unit) :
    st'.Selectable e component unit := by
  refine ⟨h.wf, fun htemporal => ?_⟩
  have hnone := h.temporal htemporal
  by_contra hsome
  rcases hcovers.static (e, component) fun heq => hsome (heq.trans hnone) with htouched | ⟨id, hid, -⟩
  · exact huntouched htouched
  · rw [hnone] at hid
    cases hid

end ChunkStore

/-! ## One key -/

namespace LatestAtCache

open ChunkStore

variable {st : ChunkStore} {cache : LatestAtCache} {query : LatestAtQuery} {mode : ChunkTrackingMode}
  {e : EntityPath} {component : ComponentIdentifier} {unit : UnitChunkShared}

def Has (cache : LatestAtCache) (unit : UnitChunkShared) : Prop :=
  ∃ t cached, cache.perQueryTime.lookup t = some cached ∧ cached.unit = unit

theorem has_of_orInsert {time : TimeInt} {new : LatestAtCachedChunk} (h : (cache.orInsert time new).Has unit) :
    cache.Has unit ∨ unit = new.unit := by
  obtain ⟨t, cached, hcached, rfl⟩ := h
  rcases orInsert_lookup hcached with hold | ⟨-, rfl⟩
  · exact .inl ⟨t, cached, hold, rfl⟩
  · exact .inr rfl

theorem latestAt_units {answer : LatestAtCache × Option UnitChunkShared × List ChunkId}
    (hanswer : cache.latestAt mode st query e component = some answer)
    (h : answer.1.Has unit ∨ answer.2.1 = some unit) :
    cache.Has unit ∨ st.Offers mode query e component unit := by
  unfold latestAt at hanswer
  split at hanswer
  · rename_i cached hcached
    cases hanswer
    refine .inl (h.elim id fun heq => ⟨query.at_, cached, hcached, some.inj heq⟩)
  · obtain ⟨results, hresults, rfl⟩ := map_eq_some_iff.mp hanswer
    split at h
    · exact .inl (h.resolve_right nofun)
    · split at h
      · exact .inl (h.resolve_right nofun)
      · rename_i index selected hselected
        obtain ⟨c, hc, hunit⟩ := mem_filterMap.mp (Seq.maxByKey_mem hselected)
        have hoffers : st.Offers mode query e component selected := ⟨results, c, index, hresults, hc, hunit⟩
        -- the unit at the time of the row, if there was one, and else the selected one
        have hcached : ∀ {unit'}, unit' = ((cache.perQueryTime.lookup (ofLex index).1).getD ⟨selected, false⟩).unit →
            cache.Has unit' ∨ st.Offers mode query e component unit' := by
          intro unit' heq
          cases hlookup : cache.perQueryTime.lookup (ofLex index).1 with
          | none =>
            rw [hlookup] at heq
            exact .inr (heq ▸ hoffers)
          | some cached =>
            rw [hlookup] at heq
            exact .inl ⟨_, cached, hlookup, heq.symm⟩
        have hdata : ∀ {unit'}, (cache.orInsert (ofLex index).1 ⟨selected, false⟩).Has unit' →
            cache.Has unit' ∨ st.Offers mode query e component unit' := by
          intro unit' hhas
          rcases has_of_orInsert hhas with hold | rfl
          · exact .inl hold
          · exact .inr hoffers
        rcases h with hhas | heq
        · dsimp only at hhas
          split at hhas
          · exact (has_of_orInsert hhas).elim hdata hcached
          · exact hdata hhas
        · exact hcached (some.inj heq).symm

/-- Every cached unit is one that a query can select, unless the static data is marked. -/
def Settled (st : ChunkStore) (key : QueryCacheKey) (cache : LatestAtCache) : Prop :=
  TimeInt.STATIC ∉ cache.pendingInvalidations → ∀ unit, cache.Has unit →
    st.Selectable key.entityPath key.component unit

variable {key : QueryCacheKey}

theorem Settled.handle (h : cache.Settled st key) {unit : UnitChunkShared}
    (hhas : cache.handlePendingInvalidation.Has unit) : st.Selectable key.entityPath key.component unit := by
  obtain ⟨t, cached, hcached, rfl⟩ := hhas
  obtain ⟨hold, hpending⟩ := handlePendingInvalidation_lookup hcached
  exact h (fun hmarked => absurd (hpending _ hmarked) (not_lt.mpr (I64.MIN_le t.asI64))) _ ⟨t, cached, hold, rfl⟩

theorem Settled.splitOff (h : cache.Settled st key) (n : Nat) : (cache.splitOff n).Settled st key := by
  obtain ⟨hsame, hkept⟩ := @splitOff_lookup cache n
  intro hunmarked unit hhas
  rw [hsame] at hunmarked
  obtain ⟨t, cached, hcached, heq⟩ := hhas
  exact h hunmarked unit ⟨t, cached, hkept t cached hcached, heq⟩

end LatestAtCache

/-! ## The memoised units -/

namespace QueryCache

open ChunkStore

variable {st st' : ChunkStore} {cache : QueryCache} {query : LatestAtQuery} {mode : ChunkTrackingMode}
  {e : EntityPath} {component : ComponentIdentifier} {isRecursive : Cell → Bool}

def Settled (st : ChunkStore) (cache : QueryCache) : Prop :=
  ∀ key entry, cache.latestAtPerCacheKey.lookup key = some entry → entry.Settled st key

theorem new_settled : new.Settled st := by
  intro key entry h
  cases h

theorem Settled.onEvents {keeps : Prop} {diffs : List ChunkStoreDiff} (hcovers : Covers keeps st diffs st')
    (h : cache.Settled st) :
    (cache.onEvents diffs).Settled st' := by
  intro key entry' hentry' hunmarked unit hhas
  obtain ⟨entry, hentry, hentries, hstill, hstatic, -⟩ := onEvents_lookup hentry'
  unfold LatestAtCache.Has at hhas
  rw [hentries] at hhas
  exact (h key entry hentry (fun hmarked => hunmarked (hstill _ hmarked)) unit hhas).covers hcovers
    fun htouched => hunmarked (hstatic htouched)

theorem Settled.gc (h : cache.Settled st) (splitPoint : QueryCacheKey → Nat) : (cache.gc splitPoint).Settled st := by
  intro key entry' hentry'
  unfold QueryCache.gc at hentry'
  dsimp only at hentry'
  rw [Assoc.lookup_map] at hentry'
  obtain ⟨entry, hentry, rfl⟩ := map_eq_some_iff.mp hentry'
  exact (h key entry hentry).splitOff _

theorem Settled.answered (hv : st.WellFiled) (h : cache.Settled st)
    {answer : QueryCache × Option UnitChunkShared × List ChunkId}
    (hanswer : cache.latestAtComponent mode st query e component = some answer) :
    answer.1.Settled st ∧ ∀ unit, answer.2.1 = some unit → st.Selectable e component unit := by
  obtain ⟨result, hresult, rfl⟩ := map_eq_some_iff.mp hanswer
  have hunits : ∀ unit, result.1.Has unit ∨ result.2.1 = some unit → st.Selectable e component unit := by
    intro unit hunit
    rcases LatestAtCache.latestAt_units hresult hunit with hhas | hoffers
    · cases hentry : cache.latestAtPerCacheKey.lookup ⟨e, query.timeline, component⟩ with
      | none =>
        rw [hentry] at hhas
        obtain ⟨t, cached, hcached, -⟩ := hhas
        cases hcached
      | some entry =>
        rw [hentry] at hhas
        exact (h _ entry hentry).handle hhas
    · exact hoffers.selectable hv
  refine ⟨fun key entry hentry => ?_, fun unit hunit => hunits unit (.inr hunit)⟩
  rw [Assoc.lookup_insert_ite] at hentry
  split at hentry
  · rename_i hkey
    cases hentry
    subst hkey
    exact fun _ unit hhas => hunits unit (.inl hhas)
  · exact h key entry hentry

theorem Settled.searchClear (hv : st.WellFiled) {known : List EntityPath} :
    ∀ (paths : List EntityPath) (search out : ClearSearch), search.cache.Settled st →
      paths.foldlM (searchClear isRecursive mode st query e known) search = some out → out.cache.Settled st
  | [], search, out, h, hout => by
    cases hout
    exact h
  | p :: paths, search, out, h, hout => by
    rw [foldlM_cons] at hout
    obtain ⟨mid, hmid, hrest⟩ := bind_eq_some_iff.mp hout
    refine Settled.searchClear hv paths mid out ?_ hrest
    rcases searchClear_cache hmid with heq | ⟨answer, hanswer, heq⟩
    · exact heq ▸ h
    · exact heq ▸ (h.answered hv hanswer).1

/-- Results of units that queries can select, at their indices, of the components that were asked for. -/
def Sound (st : ChunkStore) (query : LatestAtQuery) (e : EntityPath) (asked : List ComponentIdentifier)
    (results : LatestAtResults) : Prop :=
  ∀ component unit, results.components.lookup component = some unit →
    component ∈ asked ∧ st.Selectable e component unit ∧ ∃ index, unit.index query.timeline = some index

theorem Settled.queryComponents (hv : st.WellFiled) {maxIndex : TimeInt ×ₗ RowId} {asked : List ComponentIdentifier} :
    ∀ (components : List ComponentIdentifier) (acc out : QueryCache × LatestAtResults), components ⊆ asked →
      acc.1.Settled st → Sound st query e asked acc.2 →
      components.foldlM (queryComponent mode st query e maxIndex) acc = some out →
      out.1.Settled st ∧ Sound st query e asked out.2
  | [], acc, out, _, h, hsound, hout => by
    cases hout
    exact ⟨h, hsound⟩
  | component :: components, acc, out, hsub, h, hsound, hout => by
    rw [foldlM_cons] at hout
    obtain ⟨mid, hmid, hrest⟩ := bind_eq_some_iff.mp hout
    obtain ⟨hasked, hsub⟩ := cons_subset.mp hsub
    obtain ⟨answer, hanswer, hcache, hcases⟩ := queryComponent_cases hmid
    obtain ⟨hsettled, hunits⟩ := h.answered hv hanswer
    refine Settled.queryComponents hv components mid out hsub (hcache ▸ hsettled) ?_ hrest
    rcases hcases with heq | ⟨unit, index, hunit, hindex, -, heq⟩
    · unfold Sound
      rw [heq]
      exact hsound
    · intro component' unit' hlookup
      rw [heq, Assoc.lookup_insert_ite] at hlookup
      split at hlookup
      · rename_i hsame
        rw [hsame, ← some.inj hlookup]
        exact ⟨hasked, hunits unit hunit, index, hindex⟩
      · exact hsound component' unit' hlookup

theorem Settled.latestAt (hv : st.WellFiled) (h : cache.Settled st) {components : List ComponentIdentifier}
    {answer : QueryCache × LatestAtResults}
    (hanswer : cache.latestAt isRecursive mode st query e components = some answer) :
    answer.1.Settled st ∧
      Sound st query e (components.filter (st.entityHasComponentOnTimeline query.timeline e)) answer.2 := by
  unfold QueryCache.latestAt at hanswer
  dsimp only at hanswer
  obtain ⟨search, hsearch, hfold⟩ := bind_eq_some_iff.mp hanswer
  have hsettled : search.cache.Settled st := by
    split at hsearch
    · cases hsearch
      exact h
    · exact Settled.searchClear hv _ _ _ h hsearch
  refine Settled.queryComponents hv _ _ _ (Subset.refl _) hsettled (fun component unit hlookup => ?_) hfold
  cases hlookup

end QueryCache

/-! ## Range queries about several components -/

namespace FullQueryCache

open ChunkStore

variable {st : ChunkStore} {cache : FullQueryCache} {query : RangeQuery} {mode : ChunkTrackingMode}
  {e : EntityPath} {env : Env}

def clear (cache : FullQueryCache) : FullQueryCache :=
  { cache with
    mightRequireClearing := []
    latestAtPerCacheKey := ∅
    rangePerCacheKey := ∅ }

theorem foldlM_rangeComponent (hv : st.WellFiled) :
    ∀ (components : List ComponentIdentifier) (acc out : FullQueryCache × RangeResults × Nat),
      acc.1.RangeCurrent st → components.foldlM (rangeComponent env mode st query e) acc = some out →
      out.1.toQueryCache = acc.1.toQueryCache ∧ out.1.RangeCurrent st
  | [], acc, out, h, hout => by
    cases hout
    exact ⟨rfl, h⟩
  | component :: components, acc, out, h, hout => by
    rw [foldlM_cons] at hout
    obtain ⟨mid, hmid, hrest⟩ := bind_eq_some_iff.mp hout
    obtain ⟨hsame, hcurrent, -⟩ := rangeComponent_spec hv h hmid
    obtain ⟨hsame', hcurrent'⟩ := foldlM_rangeComponent hv components mid out hcurrent hrest
    exact ⟨hsame'.trans hsame, hcurrent'⟩

end FullQueryCache

/-! ## Runs -/

namespace ChunkStore

/-- A store and its query cache: calls whose events the cache is told, queries, collections, and the
cache dropped. -/
inductive RecordingRun (allowedCall : ChunkStore → Call → Prop) : ChunkStore → FullQueryCache → Prop
  | new (config : ChunkSplitConfig) : RecordingRun allowedCall (.new config) .new
  | call {st : ChunkStore} {cache : FullQueryCache} {call : Call} (h : RecordingRun allowedCall st cache)
      (hcall : call.Possible st) (hallowed : allowedCall st call) :
      RecordingRun allowedCall (call.run st).1 (cache.onEvents (call.run st).2)
  | latestAt {st : ChunkStore} {cache : FullQueryCache} {isRecursive : Cell → Bool} {mode : ChunkTrackingMode}
      {query : LatestAtQuery} {e : EntityPath} {components : List ComponentIdentifier}
      {answer : QueryCache × LatestAtResults} (h : RecordingRun allowedCall st cache)
      (hanswer : cache.toQueryCache.latestAt isRecursive mode st query e components = some answer) :
      RecordingRun allowedCall st { answer.1 with rangePerCacheKey := cache.rangePerCacheKey }
  | range {st : ChunkStore} {cache : FullQueryCache} {env : Env} {k : Nat} {mode : ChunkTrackingMode}
      {query : RangeQuery} {e : EntityPath} {components : List ComponentIdentifier}
      {answer : FullQueryCache × RangeResults × Nat} (h : RecordingRun allowedCall st cache)
      (hanswer : cache.range env k mode st query e components = some answer) :
      RecordingRun allowedCall st answer.1
  | gc {st : ChunkStore} {cache : FullQueryCache} (h : RecordingRun allowedCall st cache)
      (splitPoint : QueryCacheKey → Nat) : RecordingRun allowedCall st (cache.gc splitPoint)
  | clear {st : ChunkStore} {cache : FullQueryCache} (h : RecordingRun allowedCall st cache) :
      RecordingRun allowedCall st cache.clear

theorem RecordingRun.spec {st : ChunkStore} {cache : FullQueryCache}
    (h : RecordingRun Call.AgreesWithChunks st cache) :
    st.WellFiled ∧ cache.toQueryCache.Settled st ∧ cache.RangeCurrent st := by
  induction h with
  | new config => exact ⟨new_wellFiled config, QueryCache.new_settled, new_rangeCurrent⟩
  | call _ hcall hagrees ih =>
    obtain ⟨hv, hsettled, hcurrent⟩ := ih
    have hv' := Call.run_wellFiled hv hcall hagrees
    exact ⟨hv', hsettled.onEvents (Call.run_covers hv hcall),
      hcurrent.onEvents hv'.filed.sound (Call.run_reportsNew hv hcall)⟩
  | latestAt _ hanswer ih =>
    obtain ⟨hv, hsettled, hcurrent⟩ := ih
    exact ⟨hv, (hsettled.latestAt hv hanswer).1, hcurrent⟩
  | range _ hanswer ih =>
    obtain ⟨hv, hsettled, hcurrent⟩ := ih
    obtain ⟨hsame, hcurrent'⟩ := foldlM_rangeComponent hv _ _ _ hcurrent hanswer
    exact ⟨hv, hsame ▸ hsettled, hcurrent'⟩
  | gc _ splitPoint ih => exact ⟨ih.1, ih.2.1.gc splitPoint, ih.2.2⟩
  | clear _ ih => exact ⟨ih.1, QueryCache.new_settled, new_rangeCurrent⟩

end ChunkStore

end Dalaran
