import Dalaran.Store.LatestAt
import Dalaran.Store.Statistics

/-
  What a garbage collection leaves alone (`gc.rs`).

  A collection removes the chunks it marks and touches no other id
  (`gc_spares`), and it marks no static chunk, no chunk the options protect and,
  without a time cursor, no chunk of the `protect_latest` set
  (`gcFindCandidates_spec`).

  The set is there so that "a latest-at query with a value of max-int will be
  unchanged". It has the last physical ids by start of every index entry, then those
  by end, cut off after `protect_latest` of them: with one, the ends are never
  looked at. What the set does ensure is that the last start of an entry stays, so
  that a query asks for the same ids as before, less the removed ones
  (`asksFor_gc_iff`). The row it selects is then the same exactly if some chunk with
  that row is protected (`gc_protects_iff`).
-/

namespace Dalaran

open List Option ChunkIdSetPerTime AbsoluteTimeRange ChunkStore

namespace ChunkStore

variable {st : ChunkStore} {options : GarbageCollectionOptions} {clock : GcClock}

/-! ## What is marked -/

theorem gcFindCandidates_spec (hv : st.catalog.Sound) {target : Nat} {c : Chunk}
    (h : c ∈ st.gcFindCandidates options clock target) :
    st.physical c.id = some c ∧ c.isStatic = false ∧ options.isChunkProtected c = false ∧
      (options.furthestFrom = none → c.id ∉ st.findAllProtectedPhysicalChunkIds options.protectLatest) := by
  refine ⟨gcFindCandidates_physical hv h, gcFindCandidates_temporal h, ?_⟩
  rcases gcFindCandidates_cases h with ⟨timeline, time, hfurthest, -, hprotected⟩ | hc
  · refine ⟨hprotected, fun hnone => ?_⟩
    rw [hfurthest] at hnone
    cases hnone
  · obtain ⟨⟨id, -, -, hid, hlatest⟩, -, hprotected⟩ := mem_chunksInPriorityOrder.mp hc
    refine ⟨hprotected, fun _ => ?_⟩
    rw [hv.id_eq _ _ hid]
    exact hlatest

def GcMarks (st : ChunkStore) (options : GarbageCollectionOptions) (clock : GcClock) (id : ChunkId) : Prop :=
  ∃ c, (c ∈ (st.gcPlan options clock).1 ∨ c ∈ (st.gcPlan options clock).2) ∧ c.id = id

theorem gc_spares (hv : st.catalog.Sound) (options : GarbageCollectionOptions) (clock : GcClock) :
    Catalog.Spares (st.GcMarks options clock) st.catalog (st.gc options clock).1.catalog := by
  have h₁ := gcPlan_removes hv options clock
  have h₂ := removeChunksDeep_removes (hv.removes h₁.removes) (st.gcPlan options clock).2
    .garbageCollection
  rw [gc_eq]
  have hmarks : ∀ {chunks : List Chunk} {v w : Catalog}, RemovesChunks chunks v w →
      (∀ c ∈ chunks, st.GcMarks options clock c.id) → Catalog.Spares (st.GcMarks options clock) v w := by
    intro chunks v w h hchunks id hid
    refine h.spares id ?_
    rintro ⟨c, hc, rfl⟩
    exact hid (hchunks c hc)
  exact (hmarks h₁ fun c hc => ⟨c, .inl hc, rfl⟩).trans (hmarks h₂ fun c hc => ⟨c, .inr hc, rfl⟩)

theorem gc_keeps (hv : st.catalog.Sound) {id : ChunkId} {c : Chunk} (hc : st.physical id = some c)
    (h : c.isStatic = true ∨ options.isChunkProtected c = true ∨
      (options.furthestFrom = none ∧ id ∈ st.findAllProtectedPhysicalChunkIds options.protectLatest)) :
    ¬ st.GcMarks options clock id := by
  rintro ⟨d, hd, rfl⟩
  obtain ⟨hphys, htemporal, hprotected, hlatest⟩ := gcFindCandidates_spec hv (mem_gcPlan.mp hd)
  obtain rfl := mem_unique hphys hc
  rcases h with h | h | ⟨hnone, hmem⟩
  · rw [htemporal] at h
    cases h
  · rw [hprotected] at h
    cases h
  · exact hlatest hnone hmem

variable {id : ChunkId}

theorem gc_physical_of (hv : st.catalog.Sound) {c : Chunk}
    (hc : (st.gc options clock).1.physical id = some c) : st.physical id = some c := by
  have hremoves := (gc_removes hv options clock).1
  have hsome : ((st.gc options clock).1.catalog.chunks id).isSome := isSome_of_eq_some hc
  exact (hremoves.isSome_of hsome).symm.trans hc

/-! ## The last start stays -/

theorem exists_latest_physical {s : OrdSet TimeAndId} {p : ChunkId → Bool} {t : TimeInt} (hid : toLex (t, id) ∈ s)
    (hp : p id = true) :
    ∃ id' t', ((idsLatestFirst s).filter p).head? = some id' ∧ toLex (t', id') ∈ s ∧ t ≤ t' := by
  have hdesc : ((s.elems.map fun q => (ofLex q).1).dedup.reverse).Pairwise (fun a b => b ≤ a) := by
    rw [pairwise_reverse]
    have hsorted : (s.elems.map fun q => (ofLex q).1).Pairwise (· ≤ ·) := by
      refine pairwise_map.mpr (s.sorted.imp fun {a b} hab => ?_)
      rcases Prod.Lex.lt_iff.mp hab with h | ⟨h, -⟩
      · exact h.le
      · exact h.le
    exact hsorted.sublist (dedup_sublist _)
  have hmem : t ∈ (s.elems.map fun q => (ofLex q).1).dedup.reverse :=
    mem_reverse.mpr (List.mem_dedup.mpr (List.mem_map.mpr ⟨toLex (t, id), hid, rfl⟩))
  unfold idsLatestFirst
  -- along the times, the first one with a physical id comes no later than `t`
  generalize (s.elems.map fun q => (ofLex q).1).dedup.reverse = times at hdesc hmem
  induction times with
  | nil => cases hmem
  | cons u times ih =>
    rw [flatMap_cons, filter_append]
    obtain ⟨hu, htimes⟩ := pairwise_cons.mp hdesc
    cases hfirst : (idsAt s u).filter p with
    | cons x xs =>
      have hx : x ∈ (idsAt s u).filter p := hfirst ▸ mem_cons_self
      refine ⟨x, u, by simp, mem_idsAt.mp (mem_filter.mp hx).1, ?_⟩
      rcases mem_cons.mp hmem with rfl | hmem
      · exact le_rfl
      · exact hu t hmem
    | nil =>
      have hmem' : t ∈ times := by
        refine (mem_cons.mp hmem).resolve_left fun heq => ?_
        subst heq
        have hx : id ∈ (idsAt s t).filter p :=
          mem_filter.mpr ⟨mem_idsAt.mpr hid, hp⟩
        rw [hfirst] at hx
        cases hx
      exact ih htimes hmem'

theorem exists_protected_start {n : Nat} (hn : 1 ≤ n) {e : EntityPath} {timeline : TimelineName}
    {component : ComponentIdentifier} {u : TimeInt}
    (hlisted : st.ListedAt id (.component e timeline component .start u)) (hid : st.IsPhysical id) :
    ∃ id' u', st.ListedAt id' (.component e timeline component .start u') ∧ u ≤ u' ∧
      st.IsPhysical id' ∧ id' ∈ st.findAllProtectedPhysicalChunkIds n := by
  obtain ⟨s, hs, hmem⟩ := hlisted
  have hmem : toLex (u, id) ∈ s.perStartTime := hmem
  obtain ⟨id', u', hhead, hmem', hle⟩ := exists_latest_physical
    (p := fun id => decide (st.IsPhysical id)) hmem (decide_eq_true hid)
  have hphys : st.IsPhysical id' := of_decide_eq_true (mem_filter.mp (mem_of_head? hhead)).2
  refine ⟨id', u', ⟨s, hs, hmem'⟩, hle, hphys, ?_⟩
  unfold findAllProtectedPhysicalChunkIds
  rw [if_neg (by omega)]
  refine mem_flatMap.mpr ⟨s, Assoc.mem_values.mpr ⟨_, hs⟩, ?_⟩
  rw [filter_append]
  obtain ⟨rest, hrest⟩ := List.head?_eq_some_iff.mp hhead
  obtain ⟨m, rfl⟩ : ∃ m, n = m + 1 := ⟨n - 1, by omega⟩
  rw [hrest, cons_append, take_succ_cons]
  exact mem_cons_self

/-! ## Queries at the maximum time -/

theorem exists_listed_gc (hv : st.catalog.Sound) (hfurthest : options.furthestFrom = none)
    (hn : 1 ≤ options.protectLatest) {e : EntityPath} {timeline : TimelineName}
    {component : ComponentIdentifier} {id : ChunkId} {u : TimeInt}
    (hlisted : st.ListedAt id (.component e timeline component .start u)) :
    ∃ id' u', (st.gc options clock).1.ListedAt id' (.component e timeline component .start u') ∧ u ≤ u' := by
  by_cases hmarked : st.GcMarks options clock id
  · have hphys : st.IsPhysical id := by
      obtain ⟨c, hc, rfl⟩ := hmarked
      exact isSome_iff_exists.mpr ⟨c, (gcFindCandidates_spec hv (mem_gcPlan.mp hc)).1⟩
    obtain ⟨id', u', hlisted', hle, hphys', hmem⟩ := exists_protected_start hn hlisted hphys
    obtain ⟨c', hc'⟩ := isSome_iff_exists.mp hphys'
    have hkept := @gc_keeps st options clock hv id' c' hc' (.inr (.inr ⟨hfurthest, hmem⟩))
    exact ⟨id', u', (gc_spares hv options clock id' hkept).2.1 (.component e timeline component .start u')
      hlisted', hle⟩
  · exact ⟨id, u, (gc_spares hv options clock id hmarked).2.1 (.component e timeline component .start u)
      hlisted, le_rfl⟩

theorem inWindow_gc_iff (hv : st.catalog.Sound) (hfurthest : options.furthestFrom = none)
    (hn : 1 ≤ options.protectLatest) {e : EntityPath} {timeline : TimelineName} {component : ComponentIdentifier}
    (hid : (st.gc options clock).1.IsPhysical id) :
    (st.gc options clock).1.catalog.InWindow e timeline component TimeInt.MAX id ↔
      st.catalog.InWindow e timeline component TimeInt.MAX id := by
  have hremoves := (gc_removes hv options clock).1
  unfold Catalog.InWindow
  rw [hremoves.longest]
  constructor
  · rintro ⟨u, hu, hle, hbound⟩
    refine ⟨u, hremoves.listed_of _ _ hu, hle, fun id' u' hu' _ => ?_⟩
    obtain ⟨id'', u'', hlisted, hle'⟩ := @exists_listed_gc st options clock hv hfurthest hn _ _ _ _ _ hu'
    exact (I64.saturatingSub_mono hle' _).trans (hbound id'' u'' hlisted (TimeInt.le_MAX u''))
  · rintro ⟨u, hu, hle, hbound⟩
    refine ⟨u, hremoves.listed_kept _ _ hid hu, hle, fun id' u' hu' hle' => ?_⟩
    exact hbound id' u' (hremoves.listed_of _ _ hu') hle'

theorem asksFor_gc_iff (hv : st.catalog.Sound) (hfurthest : options.furthestFrom = none)
    (hn : 1 ≤ options.protectLatest) (timeline : TimelineName) (e : EntityPath) (component : ComponentIdentifier)
    (hid : (st.gc options clock).1.IsPhysical id) :
    (st.gc options clock).1.AsksFor (.latest timeline) e component id ↔
      st.AsksFor (.latest timeline) e component id := by
  unfold AsksFor
  rw [(gc_recedes st options clock).static]
  cases st.staticChunkIdsPerEntity.lookup (e, component) with
  | some staticId => exact Iff.rfl
  | none =>
    refine exists_congr fun timeline' => and_congr_right fun _ => ?_
    exact inWindow_gc_iff hv hfurthest hn hid

theorem queryLatest_gc_iff (hv : st.catalog.Sound) (hfurthest : options.furthestFrom = none)
    (hn : 1 ≤ options.protectLatest) (timeline : TimelineName) (e : EntityPath)
    (component : ComponentIdentifier) :
    (st.gc options clock).1.queryLatest (.latest timeline) e component =
        st.queryLatest (.latest timeline) e component ↔
      ∀ m, st.queryLatest (.latest timeline) e component = some m →
        ∃ c ∈ st.relevantChunks (.latest timeline) e component,
          c.latestIndex (.latest timeline) component = some m ∧
          (st.gc options clock).1.physical c.id = some c := by
  have hrelevant : ∀ c, c ∈ (st.gc options clock).1.relevantChunks (.latest timeline) e component ↔
      c ∈ st.relevantChunks (.latest timeline) e component ∧ (st.gc options clock).1.physical c.id = some c := by
    intro c
    rw [mem_relevantChunks, mem_relevantChunks]
    constructor
    · rintro ⟨id, hid, hasks⟩
      have hid' := gc_physical_of hv hid
      have hasks' := (asksFor_gc_iff hv hfurthest hn timeline e component
        (isSome_of_eq_some hid)).mp hasks
      exact ⟨⟨id, hid', hasks'⟩, hv.id_eq _ _ hid' ▸ hid⟩
    · rintro ⟨⟨id, hid', hasks'⟩, hid⟩
      rw [hv.id_eq _ _ hid'] at hid
      exact ⟨id, hid, (asksFor_gc_iff hv hfurthest hn timeline e component
        (isSome_of_eq_some hid)).mpr hasks'⟩
  have hsub : (((st.gc options clock).1.relevantChunks (.latest timeline) e component).filterMap
      (Chunk.latestIndex (.latest timeline) component)) ⊆
      (st.relevantChunks (.latest timeline) e component).filterMap
        (Chunk.latestIndex (.latest timeline) component) := by
    intro m hm
    obtain ⟨c, hc, hcm⟩ := mem_filterMap.mp hm
    exact mem_filterMap.mpr ⟨c, ((hrelevant c).mp hc).1, hcm⟩
  unfold queryLatest
  rw [Seq.max?_subset_iff hsub]
  refine forall_congr' fun m => imp_congr_right fun _ => ?_
  simp only [mem_filterMap, hrelevant]
  constructor
  · rintro ⟨c, ⟨hc, hkept⟩, hcm⟩
    exact ⟨c, hc, hcm, hkept⟩
  · rintro ⟨c, hc, hcm, hkept⟩
    exact ⟨c, ⟨hc, hkept⟩, hcm⟩

end ChunkStore

def GcClock.unlimited : GcClock := ⟨fun _ => false, fun _ => false⟩

def Chunk.HasDataIn (c : Chunk) (timeline : TimelineName) (r : AbsoluteTimeRange) : Prop :=
  ∃ row ∈ c.rows, ∃ time, row.times timeline = some time ∧ r.contains (TimeInt.newTemporal time) = true

theorem GarbageCollectionOptions.isChunkProtected_of_hasDataIn {options : GarbageCollectionOptions}
    {c : Chunk} (hc : c.WellFormed) {timeline : TimelineName} {r : AbsoluteTimeRange}
    (hr : options.protectedTimeRanges.lookup timeline = some r) (h : c.HasDataIn timeline r) :
    options.isChunkProtected c = true := by
  obtain ⟨row, hrow, time, htime, hin⟩ := h
  obtain ⟨i, hi⟩ := mem_iff_getElem?.mp hrow
  rw [Chunk.rows_getElem?] at hi
  obtain ⟨rowId, -, rfl⟩ := map_eq_some_iff.mp hi
  obtain ⟨tc, htc, hget⟩ := bind_eq_some_iff.mp (show c.timeAt i timeline = some time from htime)
  have hwf := hc.times_wf timeline tc htc
  have hmem : time ∈ tc.times := mem_of_getElem? hget
  rw [TimeInt.newTemporal_of_ne (hwf.temporal time hmem), contains_iff] at hin
  have hmeet : tc.timeRange.intersects r = true :=
    intersects_iff.mpr ⟨(hwf.min_le time hmem).trans hin.2, hin.1.trans (hwf.le_max time hmem)⟩
  unfold isChunkProtected
  rw [Bool.or_eq_true]
  right
  refine List.any_eq_true.mpr ⟨(timeline, r), Assoc.mem_toList.mpr hr, ?_⟩
  simp [htc, hmeet]

/-! ## The RowId order -/

namespace Catalog

variable {v w : Catalog}

/-- Every chunk is in the RowId order. -/
def RanksChunks (v : Catalog) : Prop :=
  ∀ id c r, v.chunks id = some c → c.minRowId = some r → v.rowOrder r id

theorem RanksChunks.removes (hv : v.RanksChunks) (h : Removes v w) : w.RanksChunks := by
  intro id c r hc hr
  have hsome : (w.chunks id).isSome := isSome_of_eq_some hc
  exact h.row_kept r id hsome (hv id c r ((h.isSome_of hsome).symm.trans hc) hr)

theorem RanksChunks.adds {c : Chunk} (hv : v.RanksChunks) (hadd : Adds c v w) : w.RanksChunks := by
  intro id d r hd hr
  rw [hadd.row]
  rcases hadd.chunks_cases hd with ⟨hid, rfl⟩ | ⟨-, hd⟩
  · exact .inl ⟨hid, hr⟩
  · exact .inr (hv id d r hd hr)

end Catalog

theorem Op.run_ranksChunks {st : ChunkStore} {op : Op} (h : st.catalog.RanksChunks)
    (hv : st.catalog.Sound) (hop : op.Possible st) : (op.run st).catalog.RanksChunks := by
  refine Op.run_keeps h hv hop Catalog.RanksChunks.removes Catalog.RanksChunks.adds (fun manifest => ?_) fun e => ?_
  · have hannounces := insertDlrManifest_announces st manifest
    intro id c r hc hr
    have hrow := h id c r (hannounces.chunks ▸ hc) hr
    exact hannounces.row ▸ hrow
  · have hdrops := dropEntityPath_drops st e
    intro id c r hc hr
    obtain ⟨hc', hkept⟩ := hdrops.physical_of hc
    exact (hdrops.row r id).mpr ⟨h id c r hc' hr, fun hdropped => hkept hdropped.1⟩

namespace ChunkStore

variable {st : ChunkStore} {options : GarbageCollectionOptions} {clock : GcClock}

theorem Reachable.ranksChunks {allowed : ChunkStore → Op → Prop} (h : Reachable allowed st) :
    st.catalog.RanksChunks := by
  induction h with
  | new config =>
    intro id c r hc
    cases hc
  | step hst hop _ ih => exact Op.run_ranksChunks ih hst.sound hop

/-! ## A collection of everything -/

theorem markUntil_all : ∀ {chunks : List Chunk} {n remaining : Nat},
    (chunks.map Chunk.sizeBytes).sum < remaining → (markUntil (fun _ => false) n remaining chunks).1 = chunks
  | [], _, _, _ => rfl
  | c :: chunks, n, remaining, h => by
    rw [map_cons, sum_cons] at h
    unfold markUntil
    rw [if_neg (by simp), if_neg (by omega)]
    dsimp only
    rw [markUntil_all (by omega)]

/-- The options with a target above the size of everything that is not protected. -/
def exhaustive (st : ChunkStore) (options : GarbageCollectionOptions) : GarbageCollectionOptions :=
  { options with
    target := .dropAtLeastBytes (((st.chunksInPriorityOrder options).map Chunk.sizeBytes).sum + 1)
    performDeepDeletions := true }

theorem gcPlan_exhaustive (hfurthest : options.furthestFrom = none) :
    st.gcPlan (st.exhaustive options) GcClock.unlimited = ([], st.chunksInPriorityOrder options) := by
  have hcandidates : ∀ target, ((st.chunksInPriorityOrder options).map Chunk.sizeBytes).sum < target →
      st.gcFindCandidates (st.exhaustive options) GcClock.unlimited target = st.chunksInPriorityOrder options := by
    intro target htarget
    unfold gcFindCandidates
    rw [if_neg (by omega)]
    have hnone : (st.exhaustive options).furthestFrom = none := hfurthest
    rw [hnone]
    exact markUntil_all htarget
  refine Prod.ext rfl ?_
  exact hcandidates _ (Nat.lt_succ_self _)

theorem gc_exhaustive_absent (hv : st.catalog.Sound) (hranks : st.catalog.RanksChunks)
    (hfurthest : options.furthestFrom = none) {id : ChunkId} {c : Chunk} (hc : st.physical id = some c)
    (htemporal : c.isStatic = false) (hprotected : options.isChunkProtected c = false)
    (hlatest : id ∉ st.findAllProtectedPhysicalChunkIds options.protectLatest) :
    (st.gc (st.exhaustive options) GcClock.unlimited).1.physical id = none := by
  have hmem : c ∈ st.chunksInPriorityOrder options := by
    obtain ⟨lo, hi, hrange, -⟩ := Chunk.rowIdRange_spec (hv.chunk id c hc).wf (hv.chunk id c hc).nonempty
    have hmin : c.minRowId = some lo := by
      unfold Chunk.minRowId
      rw [hrange]
      rfl
    exact mem_chunksInPriorityOrder.mpr
      ⟨⟨id, lo, hranks id c lo hc hmin, hc, hlatest⟩, htemporal, hprotected⟩
  rw [gc_eq, gcPlan_exhaustive hfurthest]
  -- the deep removal takes the chunk away before it touches the indices
  refine removeDeepLoop_induct (I := fun st' => st'.physical id = none) (fun _ _ _ h => h) ?_
  have habsent := @removeShallowLoop_absent none (fun _ => rfl) .garbageCollection
    (st.chunksInPriorityOrder options) 0 st hv c hmem
  rw [hv.id_eq _ _ hc] at habsent
  exact habsent

/-! ## What is protected -/

/-- A collection keeps a chunk: it stays physical, and listed where it is. -/
def GcKeeps (st : ChunkStore) (options : GarbageCollectionOptions) (clock : GcClock) (id : ChunkId)
    (c : Chunk) : Prop :=
  (st.gc options clock).1.physical id = some c ∧ ∀ s, st.ListedAt id s → (st.gc options clock).1.ListedAt id s

/-- What a collection is to leave alone. -/
structure Protects (st : ChunkStore) (options : GarbageCollectionOptions) (clock : GcClock) : Prop where
  static : ∀ id c, st.physical id = some c → c.isStatic = true → st.GcKeeps options clock id c
  chunks : ∀ id c, st.physical id = some c → id ∈ options.protectedChunks → st.GcKeeps options clock id c
  ranges : ∀ id c timeline r, st.physical id = some c →
    options.protectedTimeRanges.lookup timeline = some r → c.HasDataIn timeline r →
    st.GcKeeps options clock id c
  latest : options.furthestFrom = none → ∀ id c, st.physical id = some c →
    id ∈ st.findAllProtectedPhysicalChunkIds options.protectLatest → st.GcKeeps options clock id c
  queries : options.furthestFrom = none → 1 ≤ options.protectLatest → ∀ timeline e component,
    (st.gc options clock).1.queryLatest (.latest timeline) e component =
      st.queryLatest (.latest timeline) e component

/-- For every query at the maximum time, some chunk with the selected row is static, protected by the
options or in the `protect_latest` set. -/
def LatestProtected (st : ChunkStore) (options : GarbageCollectionOptions) : Prop :=
  ∀ timeline e component m, st.queryLatest (.latest timeline) e component = some m →
    ∃ c ∈ st.relevantChunks (.latest timeline) e component, c.latestIndex (.latest timeline) component = some m ∧
      (c.isStatic = true ∨ options.isChunkProtected c = true ∨
        c.id ∈ st.findAllProtectedPhysicalChunkIds options.protectLatest)

theorem gcKeeps_of_not_marked (hv : st.catalog.Sound) {id : ChunkId} {c : Chunk}
    (hc : st.physical id = some c) (h : ¬ st.GcMarks options clock id) : st.GcKeeps options clock id c := by
  obtain ⟨hchunks, hlisted, -⟩ := gc_spares hv options clock id h
  exact ⟨Eq.trans hchunks hc, hlisted⟩

/-- A collection protects what it is to protect, whatever its target and time budget, exactly if some
chunk with the row of each query at the maximum time is protected. -/
theorem gc_protects_iff (hst : Reachable (fun _ _ => True) st) (options : GarbageCollectionOptions) :
    (∀ target deep clock, st.Protects { options with target := target, performDeepDeletions := deep } clock) ↔
      (options.furthestFrom = none → 1 ≤ options.protectLatest → st.LatestProtected options) := by
  have hv := hst.sound
  constructor
  · intro h hfurthest hn timeline e component m hm
    by_contra hno
    -- a collection of all that is not protected takes every chunk with the row away
    have hsame := (h (st.exhaustive options).target true GcClock.unlimited).queries hfurthest hn
      timeline e component
    obtain ⟨c, hc, hcm, hkept⟩ := (@queryLatest_gc_iff st (st.exhaustive options) GcClock.unlimited hv
      hfurthest hn timeline e component).mp hsame m hm
    obtain ⟨id, hid, -⟩ := mem_relevantChunks.mp hc
    have hid' : st.physical c.id = some c := hv.id_eq _ _ hid ▸ hid
    have hunprotected : ¬ (c.isStatic = true ∨ options.isChunkProtected c = true ∨
        c.id ∈ st.findAllProtectedPhysicalChunkIds options.protectLatest) :=
      fun hprotected => hno ⟨c, hc, hcm, hprotected⟩
    rw [not_or, not_or, Bool.not_eq_true, Bool.not_eq_true] at hunprotected
    obtain ⟨htemporal, hprotected, hlatest⟩ := hunprotected
    rw [gc_exhaustive_absent hv hst.ranksChunks hfurthest hid' htemporal hprotected hlatest] at hkept
    cases hkept
  · intro h target deep clock
    refine ⟨fun id c hc hstatic => ?_, fun id c hc hid => ?_, fun id c timeline r hc hr hin => ?_,
      fun hfurthest id c hc hid => ?_, fun hfurthest hn timeline e component => ?_⟩
    · exact gcKeeps_of_not_marked hv hc (gc_keeps hv hc (.inl hstatic))
    · refine gcKeeps_of_not_marked hv hc (gc_keeps hv hc (.inr (.inl ?_)))
      simp [GarbageCollectionOptions.isChunkProtected, hv.id_eq _ _ hc, hid]
    · refine gcKeeps_of_not_marked hv hc (gc_keeps hv hc (.inr (.inl ?_)))
      exact GarbageCollectionOptions.isChunkProtected_of_hasDataIn (hv.chunk id c hc).wf hr hin
    · exact gcKeeps_of_not_marked hv hc (gc_keeps hv hc (.inr (.inr ⟨hfurthest, hid⟩)))
    · refine (queryLatest_gc_iff hv hfurthest hn timeline e component).mpr fun m hm => ?_
      obtain ⟨c, hc, hcm, hprotected⟩ := h hfurthest hn timeline e component m hm
      obtain ⟨id, hid, -⟩ := mem_relevantChunks.mp hc
      have hid' : st.physical c.id = some c := hv.id_eq _ _ hid ▸ hid
      refine ⟨c, hc, hcm, ?_⟩
      refine (gcKeeps_of_not_marked hv hid' (gc_keeps hv hid' ?_)).1
      rcases hprotected with hstatic | hprotected | hlatest
      · exact .inl hstatic
      · exact .inr (.inl hprotected)
      · exact .inr (.inr ⟨hfurthest, hlatest⟩)

def keepLatest (target : GarbageCollectionTarget) : GarbageCollectionOptions :=
  ⟨target, 1, ∅, [], none, true⟩

/-- Of each of the two entities the chunk that starts last also ends last. -/
theorem scatteredStore_gc_protects : scatteredStore.Protects (keepLatest .everything) .unlimited := by
  refine (gc_protects_iff scatteredStore_reachable (keepLatest .everything)).mpr ?_ .everything true .unlimited
  intro _ _ timeline e component m hm
  have hkeys : ∀ p ∈ Assoc.toList scatteredStore.temporalChunkIdsPerEntityPerComponent,
      p.1 = (⟨["robot"]⟩, ⟨"frame"⟩, ⟨"position"⟩) ∨ p.1 = (⟨["arm"]⟩, ⟨"frame"⟩, ⟨"position"⟩) := by decide
  obtain ⟨c, hc, -⟩ := mem_filterMap.mp (List.max?_mem hm)
  obtain ⟨id, -, hasks⟩ := mem_relevantChunks.mp hc
  have hlisted : ∃ timeline', some timeline = some timeline' ∧
      scatteredStore.catalog.InWindow e timeline' component TimeInt.MAX id := hasks
  obtain ⟨_, htimeline, u, ⟨s, hs, -⟩, -⟩ := hlisted
  cases htimeline
  rcases hkeys _ (Assoc.mem_toList.mpr hs) with hkey | hkey
  · cases hkey
    obtain rfl : toLex (⟨.sat 30⟩, 5) = m := some.inj hm
    decide
  · cases hkey
    obtain rfl : toLex (⟨.sat 40⟩, 8) = m := some.inj hm
    decide

def positionsChunk (id : ChunkId) (rowIds : List RowId) (times : List Int) : Chunk :=
  .ofColumns id ⟨["robot"]⟩ 0 rowIds [(⟨"frame"⟩, times.map I64.sat)]
    [(⟨"position"⟩, rowIds.map fun _ => some [])]

def nestedStore : ChunkStore :=
  (Op.insertChunk (.countingFrom 100) ⟨positionsChunk 2 [3, 4] [50, 60], rfl⟩).run
    ((Op.insertChunk (.countingFrom 100) ⟨positionsChunk 1 [1, 2] [0, 100], rfl⟩).run (.new ⟨0, 0, 0⟩))

/-- A collection of everything but the last chunk leaves the row of time 60 the last one. -/
theorem nestedStore_not_protects :
    Reachable (fun _ _ => True) nestedStore ∧ ¬ nestedStore.Protects (keepLatest .everything) .unlimited := by
  refine ⟨.step (.step (.new _) fresh_countingFrom trivial)
    fresh_countingFrom trivial, fun h => ?_⟩
  have hsame := h.queries rfl (by decide) ⟨"frame"⟩ ⟨["robot"]⟩ ⟨"position"⟩
  revert hsame
  decide

end ChunkStore

end Dalaran
