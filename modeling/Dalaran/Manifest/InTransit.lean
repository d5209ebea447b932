import Dalaran.Manifest.Run

/-
  Which chunks are in transit.

  A root chunk should be in transit exactly while one pending request contains it
  (`InTransitBookkeeping`). A pass keeps this as long as the rows of the chunks
  that are not loaded are current (`RowsCurrent`), and so does cancelling. Polling
  does so only for requests that brought every chunk (`KeepsInTransit`): a request
  that failed is dropped and its chunks stay in transit for good.
-/

namespace Dalaran

open List Option RrdManifestIndex

def Unloaded (rootChunks : Assoc ChunkId RootChunkInfo) (c : ChunkId) : Prop :=
  ∃ info, rootChunks.lookup c = some info ∧ info.state = .unloaded

/-- The row of every chunk that is not loaded is its own. -/
def RowsOf (rootChunks : Assoc ChunkId RootChunkInfo) (rows : List RrdManifestRow) : Prop :=
  ∀ c info, rootChunks.lookup c = some info → info.state = .unloaded → (rows[info.rowId]?).map (·.chunkId) = some c

/-! ## What a fetcher requests -/

structure Batched (rootChunks : Assoc ChunkId RootChunkInfo) (rows : List RrdManifestRow)
    (visited : OrdSet ChunkId) (b : ChunkRequestBatcher) : Prop where
  same : b.rows = rows
  loads : ∀ info ∈ b.toLoad, ∀ c ∈ info.rootChunkIds, c ∈ visited ∧ Unloaded rootChunks c
  current : ∀ i ∈ b.currentBatch.rowIndices, ∃ c, (rows[i]?).map (·.chunkId) = some c ∧
    (c ∈ visited ∧ Unloaded rootChunks c) ∧ ∀ info ∈ b.toLoad, c ∉ info.rootChunkIds
  apart : b.toLoad.Pairwise fun a a' => ∀ c ∈ a.rootChunkIds, c ∉ a'.rootChunkIds

theorem ChunkRequestBatcher.mem_chunksOf {rows : List RrdManifestRow} {c : ChunkId} :
    ∀ {is : List Nat} {chunks : List ChunkId}, chunksOf rows is = some chunks → c ∈ chunks →
      ∃ i ∈ is, (rows[i]?).map (·.chunkId) = some c := by
  intro is
  induction is with
  | nil =>
    intro chunks h hc
    cases h
    exact absurd hc (not_mem_nil)
  | cons i is ih =>
    intro chunks h hc
    unfold chunksOf at h
    rw [mapM_cons] at h
    obtain ⟨c₀, hc₀, h⟩ := bind_eq_some_iff.mp h
    obtain ⟨rest, hrest, h⟩ := bind_eq_some_iff.mp h
    cases h
    rcases mem_cons.mp hc with rfl | hc
    · exact ⟨i, mem_cons_self, hc₀⟩
    · obtain ⟨i', hi', hmap⟩ := ih hrest hc
      exact ⟨i', mem_cons_of_mem _ hi', hmap⟩

namespace Batched

variable {rootChunks : Assoc ChunkId RootChunkInfo} {rows : List RrdManifestRow}
  {visited : OrdSet ChunkId} {b b' : ChunkRequestBatcher}

theorem visit_more (h : Batched rootChunks rows visited b) (c : ChunkId) :
    Batched rootChunks rows (visited.insert c) b where
  same := h.same
  loads info hinfo c' hc' :=
    ⟨OrdSet.mem_insert.mpr (.inr (h.loads info hinfo c' hc').1), (h.loads info hinfo c' hc').2⟩
  current i hi := by
    obtain ⟨c', hrow, ⟨hvisited, hunloaded⟩, hapart⟩ := h.current i hi
    exact ⟨c', hrow, ⟨OrdSet.mem_insert.mpr (.inr hvisited), hunloaded⟩, hapart⟩
  apart := h.apart

theorem finishBatch {takes : List Nat → Bool} {r : Except Unit Unit}
    (h : Batched rootChunks rows visited b) (hb : b.finishBatch takes = some (b', r)) :
    Batched rootChunks rows visited b' := by
  unfold ChunkRequestBatcher.finishBatch at hb
  split at hb
  · obtain ⟨rfl, -⟩ := Prod.mk.inj (some.inj hb)
    exact h
  · simp only at hb
    split at hb
    · cases hb
    · rename_i chunks hchunks
      have hmem : ∀ c ∈ OrdSet.ofList chunks, (c ∈ visited ∧ Unloaded rootChunks c) ∧
          ∀ info ∈ b.toLoad, c ∉ info.rootChunkIds := by
        intro c hc
        obtain ⟨i, hi, hrow⟩ := ChunkRequestBatcher.mem_chunksOf hchunks (OrdSet.mem_ofList.mp hc)
        obtain ⟨c', hrow', hc'⟩ := h.current i (OrdSet.mem_ofList.mp hi)
        rw [h.same, hrow'] at hrow
        exact some.inj hrow ▸ hc'
      split at hb
      · obtain ⟨rfl, -⟩ := Prod.mk.inj (some.inj hb)
        refine ⟨h.same, ?_, by simp, ?_⟩
        · intro info hinfo c hc
          rcases mem_append.mp hinfo with hinfo | hinfo
          · exact h.loads info hinfo c hc
          · rw [mem_singleton.mp hinfo] at hc
            exact (hmem c hc).1
        · refine pairwise_append.mpr ⟨h.apart, pairwise_singleton .., ?_⟩
          intro info hinfo info' hinfo' c hc hc'
          rw [mem_singleton.mp hinfo'] at hc'
          exact (hmem c hc').2 info hinfo hc
      · obtain ⟨rfl, -⟩ := Prod.mk.inj (some.inj hb)
        exact ⟨h.same, h.loads, by simp, h.apart⟩

theorem addRow {c : ChunkId} {info : RootChunkInfo} {row : RrdManifestRow}
    (h : Batched rootChunks rows visited b) (hc : c ∉ visited)
    (hinfo : rootChunks.lookup c = some info) (hstate : info.state = .unloaded)
    (hrow : (rows[info.rowId]?).map (·.chunkId) = some c) :
    Batched rootChunks rows (visited.insert c) (b.addRow info.rowId row) := by
  have hmore := h.visit_more c
  refine ⟨h.same, hmore.loads, ?_, h.apart⟩
  intro i hi
  rcases mem_append.mp hi with hi | hi
  · exact hmore.current i hi
  · rw [mem_singleton.mp hi]
    refine ⟨c, hrow, ⟨OrdSet.mem_insert.mpr (.inl rfl), info, hinfo, hstate⟩, ?_⟩
    intro info' hinfo' hc'
    exact hc (h.loads info' hinfo' c hc').1

theorem tryFetch {takes : List Nat → Bool} {c : ChunkId} {info : RootChunkInfo}
    {budget budget' : RemainingByteBudget} {r : Except Unit Bool}
    (h : Batched rootChunks rows visited b) (hc : c ∉ visited)
    (hinfo : rootChunks.lookup c = some info) (hstate : info.state = .unloaded)
    (hrow : (rows[info.rowId]?).map (·.chunkId) = some c)
    (hb : b.tryFetch takes info.rowId budget = some (b', budget', r)) :
    Batched rootChunks rows (visited.insert c) b' := by
  unfold ChunkRequestBatcher.tryFetch at hb
  split at hb
  · cases hb
  · split at hb
    · obtain ⟨rfl, -⟩ := Prod.mk.inj (some.inj hb)
      exact h.visit_more c
    · simp only at hb
      split at hb
      · obtain ⟨⟨b₁, r₁⟩, hb₁, heq⟩ := map_eq_some_iff.mp hb
        obtain ⟨rfl, -⟩ := Prod.mk.inj heq
        exact (h.addRow hc hinfo hstate hrow).finishBatch hb₁
      · obtain ⟨rfl, -⟩ := Prod.mk.inj (some.inj hb)
        exact h.addRow hc hinfo hstate hrow

end Batched

namespace ChunkFetcher

variable {rootChunks : Assoc ChunkId RootChunkInfo} {rows : List RrdManifestRow}
  {store : ChunkStore} {takes : List Nat → Bool}

abbrev Sound (rootChunks : Assoc ChunkId RootChunkInfo) (rows : List RrdManifestRow)
    (f : ChunkFetcher) : Prop :=
  Batched rootChunks rows f.visitedRootChunks f.batcher

theorem protectPhysical_frame (required : Bool) (ids : List ChunkId) (f : ChunkFetcher)
    (budget : RemainingByteBudget) :
    (protectPhysical store required ids f budget).1.visitedRootChunks = f.visitedRootChunks ∧
      (protectPhysical store required ids f budget).1.batcher = f.batcher := by
  induction ids generalizing f budget with
  | nil => exact ⟨rfl, rfl⟩
  | cons id ids ih =>
    rw [protectPhysical]
    split
    · exact ih f budget
    · split
      · exact ih f budget
      · split
        · exact ⟨rfl, rfl⟩
        · exact ih _ _

theorem visitLoaded_frame (chunk : PrioritizedRootChunk) (f : ChunkFetcher)
    (budget : RemainingByteBudget) :
    (visitLoaded store chunk f budget).1.visitedRootChunks = f.visitedRootChunks ∧
      (visitLoaded store chunk f budget).1.batcher = f.batcher :=
  protectPhysical_frame chunk.stage.isRequired (store.physicalDescendentsOf chunk.rootChunkId)
    (f.protectRoot chunk.rootChunkId) budget

variable {budget budget' : RemainingByteBudget} {f f' : ChunkFetcher}

theorem visitUnloaded_sound {chunk : PrioritizedRootChunk} {info : RootChunkInfo} {flow : Flow}
    {visited : OrdSet ChunkId} (hrows : RowsOf rootChunks rows) (h : Batched rootChunks rows visited f.batcher)
    (hvisited : f.visitedRootChunks = visited.insert chunk.rootChunkId) (hnew : chunk.rootChunkId ∉ visited)
    (hinfo : rootChunks.lookup chunk.rootChunkId = some info)
    (hf : visitUnloaded store takes chunk info f budget = some (f', budget', flow)) :
    f'.Sound rootChunks rows := by
  have hmore : ∀ g : ChunkFetcher, g.visitedRootChunks = f.visitedRootChunks →
      g.batcher = f.batcher → g.Sound rootChunks rows := by
    intro g hgv hgb
    unfold Sound
    rw [hgv, hgb, hvisited]
    exact h.visit_more _
  unfold visitUnloaded at hf
  -- The flag set for a required chunk touches neither the batches nor what was visited.
  set f₀ : ChunkFetcher := if chunk.stage.isRequired then
    { f with state := { f.state with allRequiredAreLoaded := some false } } else f with hf₀
  have hv₀ : f₀.visitedRootChunks = f.visitedRootChunks := by
    rw [hf₀]
    split <;> rfl
  have hb₀ : f₀.batcher = f.batcher := by
    rw [hf₀]
    split <;> rfl
  simp only at hf
  split at hf
  · cases hf
  · split at hf
    · obtain ⟨rfl, -⟩ := Prod.mk.inj (some.inj hf)
      exact hmore _ hv₀ hb₀
    · split at hf
      · obtain ⟨rfl, -⟩ := Prod.mk.inj (some.inj hf)
        exact hmore _ hv₀ hb₀
      · split at hf
        · rename_i hstate
          have hfetch : ∀ {b' : ChunkRequestBatcher} {budget₁ budget₂ : RemainingByteBudget}
              {r : Except Unit Bool},
              f₀.batcher.tryFetch takes info.rowId budget₁ = some (b', budget₂, r) →
              Batched rootChunks rows f₀.visitedRootChunks b' := by
            intro b' budget₁ budget₂ r hb'
            rw [hb₀] at hb'
            rw [hv₀, hvisited]
            exact h.tryFetch hnew hinfo hstate (hrows _ _ hinfo hstate) hb'
          split at hf
          · cases hf
          all_goals
            rename_i hb'
            obtain ⟨rfl, -⟩ := Prod.mk.inj (some.inj hf)
            exact hfetch hb'
        · obtain ⟨rfl, -⟩ := Prod.mk.inj (some.inj hf)
          exact hmore _ hv₀ hb₀

theorem visit_sound {chunk : PrioritizedRootChunk} {flow : Flow}
    (hrows : RowsOf rootChunks rows) (h : f.Sound rootChunks rows)
    (hf : visit store rootChunks takes chunk f budget = some (f', budget', flow)) :
    f'.Sound rootChunks rows := by
  unfold visit at hf
  split at hf
  · obtain ⟨rfl, -⟩ := Prod.mk.inj (some.inj hf)
    exact h
  · rename_i hnew
    split at hf
    · obtain ⟨rfl, -⟩ := Prod.mk.inj (some.inj hf)
      exact h.visit_more _
    · rename_i info hinfo
      split at hf
      · obtain ⟨hvisited, hbatcher⟩ := @visitLoaded_frame store chunk
          { f with visitedRootChunks := f.visitedRootChunks.insert chunk.rootChunkId } budget
        rw [some.inj hf] at hvisited hbatcher
        unfold Sound
        rw [hvisited, hbatcher]
        exact h.visit_more _
      · refine visitUnloaded_sound hrows ?_ rfl hnew hinfo hf
        exact h

theorem fetchLoop_sound {toState : FetchStage} (hrows : RowsOf rootChunks rows) :
    ∀ (queue : List PrioritizedRootChunk) {f f' : ChunkFetcher} {budget : RemainingByteBudget}
      {r : Except Unit Unit}, f.Sound rootChunks rows →
      fetchLoop store rootChunks takes toState queue f budget = some (f', r) →
      f'.Sound rootChunks rows := by
  intro queue
  induction queue with
  | nil =>
    intro f f' budget r h hf
    obtain ⟨rfl, -⟩ := Prod.mk.inj (some.inj hf)
    exact h
  | cons chunk queue ih =>
    intro f f' budget r h hf
    rw [fetchLoop] at hf
    split at hf
    · obtain ⟨rfl, -⟩ := Prod.mk.inj (some.inj hf)
      exact h
    · split at hf
      · cases hf
      · rename_i hvisit
        exact ih (visit_sound hrows h hvisit) hf
      all_goals
        rename_i hvisit
        have hsound := visit_sound hrows h hvisit
        obtain ⟨rfl, -⟩ := Prod.mk.inj (some.inj hf)
        exact hsound

theorem fetch_sound {toState : FetchStage} {r : Except Unit Unit}
    (hrows : RowsOf rootChunks rows) (h : f.Sound rootChunks rows)
    (hf : f.fetch store rootChunks takes toState budget = some (f', r)) : f'.Sound rootChunks rows := by
  unfold fetch at hf
  simp only at hf
  split at hf
  · rename_i looped hloop
    have hsound : looped.Sound rootChunks rows := by
      refine fetchLoop_sound hrows _ ?_ hloop
      exact h
    split at hf
    all_goals
      obtain ⟨rfl, -⟩ := Prod.mk.inj (some.inj hf)
      exact hsound
  · refine fetchLoop_sound hrows _ ?_ hf
    exact h

theorem fetchAll_sound {pass : PrefetchPass} (hrows : RowsOf rootChunks rows) :
    ∀ (fetches : List (FetchStage × RemainingByteBudget)) {f f' : ChunkFetcher} {r : Except Unit Unit},
      f.Sound rootChunks rows →
      RrdManifestIndex.fetchAll pass rootChunks fetches f = some (f', r) → f'.Sound rootChunks rows := by
  intro fetches
  induction fetches with
  | nil =>
    intro f f' r h hf
    obtain ⟨rfl, -⟩ := Prod.mk.inj (some.inj hf)
    exact h
  | cons call fetches ih =>
    intro f f' r h hf
    rw [fetchAll] at hf
    split at hf
    · cases hf
    · rename_i hfetch
      exact ih (fetch_sound hrows h hfetch) hf
    · rename_i hfetch
      split at hf
      · obtain ⟨rfl, -⟩ := Prod.mk.inj (some.inj hf)
        exact fetch_sound hrows h hfetch
      · exact ih (fetch_sound hrows h hfetch) hf

end ChunkFetcher

namespace RrdManifestIndex

/-! ## The bookkeeping -/

/-- How many pending requests contain a chunk. -/
def pendingCount (idx : RrdManifestIndex) (c : ChunkId) : Nat :=
  idx.chunkPrioritizer.chunkRequests.countP fun batch => decide (c ∈ batch.info.rootChunkIds)

/-- A root chunk is in transit iff exactly one pending request contains it. So one that is neither
loaded nor pending can be requested, and no chunk is downloaded twice at once. -/
structure InTransitBookkeeping (idx : RrdManifestIndex) : Prop where
  inTransit_iff : ∀ c info, idx.rootChunks.lookup c = some info → (info.state = .inTransit ↔ idx.pendingCount c = 1)
  requestable : ∀ c info, idx.rootChunks.lookup c = some info → info.state ≠ .fullyLoaded →
    idx.pendingCount c = 0 → info.state = .unloaded
  once : ∀ c, idx.pendingCount c ≤ 1

variable {idx : RrdManifestIndex}

theorem InTransitBookkeeping.of_iff (hiff : ∀ c info, idx.rootChunks.lookup c = some info →
      (info.state = .inTransit ↔ idx.pendingCount c = 1))
    (honce : ∀ c, idx.pendingCount c ≤ 1) : idx.InTransitBookkeeping where
  inTransit_iff := hiff
  requestable c info hinfo hloaded hcount := by
    cases hstate : info.state with
    | unloaded => rfl
    | inTransit =>
      have := (hiff c info hinfo).mp hstate
      omega
    | fullyLoaded => exact absurd hstate hloaded
  once := honce

/-- The row that the index has for every chunk that is not loaded is the chunk's row in the manifest. -/
def RowsCurrent (idx : RrdManifestIndex) : Prop :=
  ∀ manifest, idx.manifest = some manifest → RowsOf idx.rootChunks manifest.rows

/-- The steps that keep the bookkeeping. -/
def KeepsInTransit (idx : RrdManifestIndex) : ManifestOp → Prop
  | .append delta _ => ∀ c ∈ delta.colChunkIds, idx.pendingCount c = 0
  | .prefetch _ => idx.RowsCurrent
  | .settle _ _ => True
  | .receive store events =>
    ∀ batch ∈ idx.chunkPrioritizer.chunkRequests, ∀ c ∈ batch.info.rootChunkIds,
      ∀ info, idx.rootChunks.lookup c = some info →
        (c ∈ (idx.marksOf store events).map Prod.fst ↔ (ChunkRequests.poll batch).2 = false)
  | .cancel => True
  | .storeEvents store events =>
    ∀ c ∈ (idx.marksOf store events).map Prod.fst, ∀ info, idx.rootChunks.lookup c = some info →
      idx.pendingCount c = 0

/-! ## Every step -/

section Steps

variable {idx : RrdManifestIndex}

theorem InTransitBookkeeping.not_pending (h : idx.InTransitBookkeeping) {c : ChunkId}
    {info : RootChunkInfo} (hinfo : idx.rootChunks.lookup c = some info)
    (hstate : info.state ≠ .inTransit) : idx.pendingCount c = 0 := by
  have hone := mt (h.inTransit_iff c info hinfo).mpr hstate
  have hle := h.once c
  omega

theorem append_frame (delta : RrdManifest) (concatenates : Bool) :
    (idx.append delta concatenates).1.rootChunks =
        insertRows idx.rootChunks (idx.manifest.elim 0 (·.rows.length)) delta.rows ∧
      (idx.append delta concatenates).1.chunkPrioritizer.chunkRequests = idx.chunkPrioritizer.chunkRequests := by
  unfold append
  simp only
  split
  · exact ⟨rfl, rfl⟩
  · exact ⟨rfl, rfl⟩

theorem append_keeps (h : idx.InTransitBookkeeping) {delta : RrdManifest} (concatenates : Bool)
    (hdelta : ∀ c ∈ delta.colChunkIds, idx.pendingCount c = 0) :
    (idx.append delta concatenates).1.InTransitBookkeeping := by
  obtain ⟨hroots, hrequests⟩ := @append_frame idx delta concatenates
  have hcount : ∀ c, (idx.append delta concatenates).1.pendingCount c = idx.pendingCount c := fun c => by
    rw [pendingCount, pendingCount, hrequests]
  refine .of_iff ?_ fun c => hcount c ▸ h.once c
  intro c info hinfo
  rw [hcount]
  rw [hroots] at hinfo
  obtain ⟨hother, hlisted⟩ := insertRows_lookup delta.rows idx.rootChunks
    (idx.manifest.elim 0 (·.rows.length)) c
  by_cases hc : c ∈ delta.colChunkIds
  · obtain ⟨i, -, hl⟩ := hlisted hc
    rw [hl] at hinfo
    cases hinfo
    rw [hdelta c hc]
    simp [RootChunkInfo.new]
  · rw [hother hc] at hinfo
    exact h.inTransit_iff c info hinfo

variable {events : List ChunkStoreDiff} {store : ChunkStore}

theorem onEvents_keeps {before : RrdManifestIndex} (h : before.InTransitBookkeeping)
    (hroots : idx.rootChunks = before.rootChunks) (hcount : ∀ c info, before.rootChunks.lookup c = some info →
      idx.pendingCount c = if c ∈ (idx.marksOf store events).map Prod.fst then 0 else before.pendingCount c)
    (honce : ∀ c, idx.pendingCount c ≤ 1) : (idx.onEvents store events).InTransitBookkeeping := by
  rw [onEvents_eq_foldl]
  have hlookup := foldl_markRootAs_lookup (idx.marksOf store events) idx
  have hpending : ∀ c, pendingCount
      ((idx.marksOf store events).foldl (fun idx mark => idx.markRootAs mark.2 mark.1) idx) c =
        idx.pendingCount c := by
    intro c
    rw [pendingCount, pendingCount, (hlookup c).1]
  refine .of_iff ?_ fun c => hpending c ▸ honce c
  intro c info hinfo
  rw [hpending]
  obtain ⟨-, hother, hmarked⟩ := hlookup c
  by_cases hc : c ∈ (idx.marksOf store events).map Prod.fst
  · obtain ⟨info₀, mark, hinfo₀, hmem, -, rfl⟩ := hmarked hc info hinfo
    rw [hcount c info₀ (hroots ▸ hinfo₀), if_pos hc]
    simp [state_of_mem_marksOf hmem]
  · rw [hother hc, hroots] at hinfo
    rw [hcount c info hinfo, if_neg hc]
    exact h.inTransit_iff c info hinfo

theorem storeEvents_keeps (h : idx.InTransitBookkeeping)
    (hmarks : ∀ c ∈ (idx.marksOf store events).map Prod.fst, ∀ info,
      idx.rootChunks.lookup c = some info → idx.pendingCount c = 0) :
    (idx.onEvents store events).InTransitBookkeeping := by
  refine onEvents_keeps h rfl ?_ h.once
  intro c info hinfo
  split
  · rename_i hc
    exact hmarks c hc info hinfo
  · rfl

theorem receive_keeps (h : idx.InTransitBookkeeping)
    (hreceive : ∀ batch ∈ idx.chunkPrioritizer.chunkRequests, ∀ c ∈ batch.info.rootChunkIds,
      ∀ info, idx.rootChunks.lookup c = some info →
        (c ∈ (idx.marksOf store events).map Prod.fst ↔ (ChunkRequests.poll batch).2 = false)) :
    (idx.receiveFinished.2.onEvents store events).InTransitBookkeeping := by
  have hmarks : idx.receiveFinished.2.marksOf store events = idx.marksOf store events := rfl
  have hpending : ∀ c, idx.receiveFinished.2.pendingCount c =
      (idx.chunkPrioritizer.chunkRequests.filter fun batch => (ChunkRequests.poll batch).2).countP
        fun batch => decide (c ∈ batch.info.rootChunkIds) := fun _ => rfl
  refine onEvents_keeps h rfl ?_ ?_
  · intro c info hinfo
    rw [hmarks, hpending, countP_filter]
    split
    · -- Every request that contains the chunk is done.
      rename_i hc
      apply countP_eq_zero.mpr
      intro batch hbatch
      simp only [Bool.and_eq_true, decide_eq_true_eq, not_and]
      intro hmem
      rw [(hreceive batch hbatch c hmem info hinfo).mp hc]
      exact Bool.false_ne_true
    · rename_i hc
      apply countP_congr
      intro batch hbatch
      simp only [Bool.and_eq_true, decide_eq_true_eq, and_iff_left_iff_imp]
      intro hmem
      have hstays := mt (hreceive batch hbatch c hmem info hinfo).mpr hc
      simpa using hstays
  · intro c
    exact filter_sublist.countP_le.trans (h.once c)

theorem settle_keeps (h : idx.InTransitBookkeeping) (batch : Nat) (result : Except Unit (List Chunk)) :
    (idx.settle batch result).InTransitBookkeeping := by
  have hcount : ∀ c, (idx.settle batch result).pendingCount c = idx.pendingCount c := by
    intro c
    unfold pendingCount settle
    generalize idx.chunkPrioritizer.chunkRequests = requests
    induction requests generalizing batch with
    | nil => cases batch <;> rfl
    | cons b requests ih =>
      have hinfo : (b.settle result).info = b.info := by
        unfold ChunkBatchRequest.settle
        split <;> rfl
      cases batch with
      | zero => simp [modify_zero_cons, countP_cons, hinfo]
      | succ batch => simp [modify_succ_cons, countP_cons, ih batch]
  refine .of_iff ?_ fun c => hcount c ▸ h.once c
  intro c info hinfo
  rw [hcount]
  exact h.inTransit_iff c info hinfo

theorem cancel_keeps (h : idx.InTransitBookkeeping) : idx.cancelOutdatedRequests.InTransitBookkeeping := by
  unfold cancelOutdatedRequests
  split
  · exact h
  · simp only [ChunkRequests.cancelOutdatedRequests]
    generalize hout : ChunkRequests.outdated idx.chunkPrioritizer.protectedChunks.roots = out
    set requests := idx.chunkPrioritizer.chunkRequests with hrequests
    set kept : RrdManifestIndex :=
      { idx with chunkPrioritizer :=
        { idx.chunkPrioritizer with chunkRequests := requests.filter fun batch => !out batch } } with hkept
    set cancelled := (requests.filter out).flatMap (·.info.rootChunkIds.elems) with hcancelled
    change (kept.setStates cancelled .unloaded).InTransitBookkeeping
    have hpending : ∀ c, (kept.setStates cancelled .unloaded).pendingCount c = kept.pendingCount c := by
      intro c
      rw [pendingCount, pendingCount, setStates_frame]
    -- A chunk's requests are either kept or cancelled.
    have hsplit : ∀ c, kept.pendingCount c +
        (requests.filter out).countP (fun batch => decide (c ∈ batch.info.rootChunkIds)) = idx.pendingCount c := by
      intro c
      have hperm := (filter_append_perm out requests).countP_eq
        (fun batch : ChunkBatchRequest => decide (c ∈ batch.info.rootChunkIds))
      rw [countP_append] at hperm
      unfold pendingCount
      rw [← hrequests]
      simp only [hkept]
      omega
    have honce : ∀ c, kept.pendingCount c ≤ 1 := fun c => by
      have := hsplit c
      have := h.once c
      omega
    have hmem : ∀ c, c ∈ cancelled ↔
        0 < (requests.filter out).countP (fun batch => decide (c ∈ batch.info.rootChunkIds)) := by
      intro c
      rw [countP_pos_iff, hcancelled, mem_flatMap]
      simp [OrdSet.mem_def]
    refine .of_iff ?_ fun c => hpending c ▸ honce c
    intro c info hinfo
    rw [hpending]
    rw [setStates_lookup] at hinfo
    have hsplitc := hsplit c
    split at hinfo
    · rename_i hc
      obtain ⟨info₀, hinfo₀, rfl⟩ := map_eq_some_iff.mp hinfo
      have hpos := (hmem c).mp hc
      have hle := h.once c
      have hzero : kept.pendingCount c = 0 := by omega
      rw [hzero]
      simp
    · rename_i hc
      have hnone : ¬ 0 < (requests.filter out).countP
          (fun batch => decide (c ∈ batch.info.rootChunkIds)) := fun hpos => hc ((hmem c).mpr hpos)
      have heq : kept.pendingCount c = idx.pendingCount c := by omega
      rw [heq]
      exact h.inTransit_iff c info hinfo

/-! ### A pass -/

theorem updateLoadedRanges_frame (idx : RrdManifestIndex) (timeline : TimelineName) :
    idx.updateLoadedRanges timeline =
      { idx with loadedRanges := (idx.updateLoadedRanges timeline).loadedRanges } := by
  unfold updateLoadedRanges
  cases hl : idx.loadedRanges with
  | some loadedRanges =>
    simp only
    split
    · rfl
    · unfold rebuildLoadedRanges
      split
      · rfl
      · rfl
  | none =>
    simp only
    unfold rebuildLoadedRanges
    split
    · rfl
    · rfl

/-- What a pass changes: the chunks of the new requests were not loaded, and are in transit now. -/
structure Requested (idx idx' : RrdManifestIndex) (batches : List RequestInfo) : Prop where
  manifest : idx'.manifest = idx.manifest
  sortedChunks : idx'.sortedChunks = idx.sortedChunks
  timelines : idx'.timelines = idx.timelines
  paths : idx'.chunkPrioritizer.componentPathsFromRootId = idx.chunkPrioritizer.componentPathsFromRootId
  requests : idx'.chunkPrioritizer.chunkRequests =
    idx.chunkPrioritizer.chunkRequests ++ batches.map fun info => ⟨some .pending, info⟩
  states : ∀ c, idx'.rootChunks.lookup c =
    if c ∈ batches.flatMap (·.rootChunkIds.elems) then
      (idx.rootChunks.lookup c).map fun info => { info with state := .inTransit }
    else idx.rootChunks.lookup c
  unloaded : ∀ info ∈ batches, ∀ c ∈ info.rootChunkIds, Unloaded idx.rootChunks c
  apart : batches.Pairwise fun a a' => ∀ c ∈ a.rootChunkIds, c ∉ a'.rootChunkIds

variable {batches : List RequestInfo}

theorem Requested.updateLoadedRanges {mid : RrdManifestIndex} (h : Requested idx mid batches)
    (timeline : TimelineName) :
    Requested idx (mid.updateLoadedRanges timeline) batches := by
  rw [updateLoadedRanges_frame]
  exact ⟨h.manifest, h.sortedChunks, h.timelines, h.paths, h.requests, h.states, h.unloaded, h.apart⟩

/-- A pass requests some chunks and may then bring the loaded ranges up to date for the interest it
found. -/
structure Passed (idx : RrdManifestIndex) (pass : PrefetchPass) (mid idx' : RrdManifestIndex) : Prop where
  requested : ∃ batches, Requested idx mid batches
  loadedRanges : mid.loadedRanges = idx.loadedRanges
  updated : idx' = mid ∨ ∃ timeline, pass.timeCursor = some timeline ∧
    mid.chunkPrioritizer.componentsOfInterest = idx.chunkPrioritizer.interestOf pass.store pass.tracker ∧
    idx' = mid.updateLoadedRanges timeline

variable {pass : PrefetchPass}

theorem finish_spec {f : ChunkFetcher} {after : RrdManifestIndex} {r : Except Unit ChunkFetchResult}
    (h : idx.finish pass f = some (after, r)) :
    after.manifest = idx.manifest ∧ after.sortedChunks = idx.sortedChunks ∧
      after.timelines = idx.timelines ∧ after.rootChunks = idx.rootChunks ∧
      after.loadedRanges = idx.loadedRanges ∧
      after.chunkPrioritizer.componentPathsFromRootId = idx.chunkPrioritizer.componentPathsFromRootId ∧
      after.chunkPrioritizer.componentsOfInterest = idx.chunkPrioritizer.componentsOfInterest ∧
      ((∃ e, r = .error e) ∧ after.chunkPrioritizer.chunkRequests = idx.chunkPrioritizer.chunkRequests ∨
        ∃ batcher, f.batcher.finishBatch pass.takes = some (batcher, .ok ()) ∧
          after.chunkPrioritizer.chunkRequests = idx.chunkPrioritizer.chunkRequests ++
            batcher.toLoad.map (fun info => ⟨some .pending, info⟩) ∧
          r = .ok ⟨batcher.toLoad.flatMap (·.rootChunkIds.elems), pass.timeCursor⟩) := by
  unfold finish at h
  split at h
  · cases h
  · obtain ⟨rfl, rfl⟩ := Prod.mk.inj (some.inj h)
    exact ⟨rfl, rfl, rfl, rfl, rfl, rfl, rfl, .inl ⟨⟨_, rfl⟩, rfl⟩⟩
  · rename_i batcher hbatcher
    obtain ⟨rfl, rfl⟩ := Prod.mk.inj (some.inj h)
    exact ⟨rfl, rfl, rfl, rfl, rfl, rfl, rfl, .inr ⟨batcher, hbatcher, rfl, rfl⟩⟩

theorem Passed.nothing {mid : RrdManifestIndex} (hmanifest : mid.manifest = idx.manifest)
    (hsorted : mid.sortedChunks = idx.sortedChunks) (htimelines : mid.timelines = idx.timelines)
    (hpaths : mid.chunkPrioritizer.componentPathsFromRootId = idx.chunkPrioritizer.componentPathsFromRootId)
    (hrequests : mid.chunkPrioritizer.chunkRequests = idx.chunkPrioritizer.chunkRequests)
    (hroots : mid.rootChunks = idx.rootChunks) (hloaded : mid.loadedRanges = idx.loadedRanges) :
    Passed idx pass mid mid := by
  refine ⟨⟨[], hmanifest, hsorted, htimelines, hpaths, ?_, ?_, by simp, List.Pairwise.nil⟩, hloaded, .inl rfl⟩
  · rw [hrequests, map_nil, append_nil]
  · intro c
    rw [hroots]
    rfl

variable {idx' : RrdManifestIndex}

theorem prefetch_passed (hrows : idx.RowsCurrent)
    (h : idx.prefetch pass = some idx') : ∃ mid, Passed idx pass mid idx' := by
  unfold prefetch at h
  split at h
  · cases h
    exact ⟨_, .nothing rfl rfl rfl rfl rfl rfl rfl⟩
  · rename_i manifest hmanifest
    simp only at h
    split at h
    · cases h
    · cases h
      exact ⟨_, .nothing rfl rfl rfl rfl rfl rfl rfl⟩
    · rename_i fetcher hfetch
      have hsound : fetcher.Sound idx.rootChunks manifest.rows := by
        refine ChunkFetcher.fetchAll_sound (hrows manifest hmanifest) _ ?_ hfetch
        exact ⟨rfl, by simp [prepare], by simp [prepare], List.Pairwise.nil⟩
      split at h
      · cases h
      · rename_i finished e hfinish
        obtain ⟨h₁, h₂, h₃, h₄, h₅, h₆, -, hcases⟩ := finish_spec hfinish
        cases h
        rcases hcases with ⟨-, hrequests⟩ | ⟨_, -, -, hr⟩
        · exact ⟨_, .nothing h₁ h₂ h₃ h₆ hrequests h₄ h₅⟩
        · cases hr
      · rename_i finished res hfinish
        obtain ⟨h₁, h₂, h₃, h₄, h₅, h₆, h₇, hcases⟩ := finish_spec hfinish
        cases h
        rcases hcases with ⟨⟨_, hr⟩, -⟩ | ⟨batcher, hbatcher, hrequests, hr⟩
        · cases hr
        · cases hr
          have hbatched := hsound.finishBatch hbatcher
          have hset := setStates_frame (batcher.toLoad.flatMap (·.rootChunkIds.elems)) .inTransit finished
          refine ⟨finished.setStates (batcher.toLoad.flatMap (·.rootChunkIds.elems)) .inTransit,
            ⟨batcher.toLoad, ?_⟩, ?_, ?_⟩
          · refine ⟨?_, ?_, ?_, ?_, ?_, ?_,
              fun info hinfo c hc => (hbatched.loads info hinfo c hc).2, hbatched.apart⟩
            · rw [hset]
              exact h₁
            · rw [hset]
              exact h₂
            · rw [hset]
              exact h₃
            · rw [hset]
              exact h₆
            · rw [hset]
              exact hrequests
            · intro c
              rw [setStates_lookup, h₄]
              rfl
          · rw [hset]
            exact h₅
          · cases hcursor : pass.timeCursor with
            | none => exact .inl rfl
            | some timeline =>
              refine .inr ⟨timeline, rfl, ?_, rfl⟩
              rw [hset]
              exact h₇

theorem prefetch_requested (hrows : idx.RowsCurrent)
    (h : idx.prefetch pass = some idx') : ∃ batches, Requested idx idx' batches := by
  obtain ⟨mid, ⟨batches, hreq⟩, -, hupdated⟩ := prefetch_passed hrows h
  rcases hupdated with rfl | ⟨timeline, -, -, rfl⟩
  · exact ⟨batches, hreq⟩
  · exact ⟨batches, hreq.updateLoadedRanges timeline⟩

theorem countP_le_one_of_apart (c : ChunkId)
    (h : batches.Pairwise fun a a' => ∀ c ∈ a.rootChunkIds, c ∉ a'.rootChunkIds) :
    (batches.countP fun info => decide (c ∈ info.rootChunkIds)) ≤ 1 := by
  induction batches with
  | nil => simp
  | cons info batches ih =>
    obtain ⟨hinfo, hbatches⟩ := pairwise_cons.mp h
    by_cases hc : c ∈ info.rootChunkIds
    · have hzero : (batches.countP fun info => decide (c ∈ info.rootChunkIds)) = 0 :=
        countP_eq_zero.mpr fun info' hinfo' => by simpa using hinfo info' hinfo' c hc
      rw [countP_cons, hzero]
      simp [hc]
    · rw [countP_cons_of_neg (by simpa using hc)]
      exact ih hbatches

theorem Requested.keeps (h : idx.InTransitBookkeeping)
    (hreq : Requested idx idx' batches) : idx'.InTransitBookkeeping := by
  have hcount : ∀ c, idx'.pendingCount c = idx.pendingCount c +
      batches.countP fun info => decide (c ∈ info.rootChunkIds) := by
    intro c
    unfold pendingCount
    rw [hreq.requests, countP_append, countP_map]
    rfl
  have hmem : ∀ c, c ∈ batches.flatMap (·.rootChunkIds.elems) ↔
      0 < batches.countP fun info => decide (c ∈ info.rootChunkIds) := by
    intro c
    simp [OrdSet.mem_def]
  have hnew := fun c => countP_le_one_of_apart c hreq.apart
  -- No request contained a chunk of the new ones.
  have hfresh : ∀ c ∈ batches.flatMap (·.rootChunkIds.elems), idx.pendingCount c = 0 := by
    intro c hc
    obtain ⟨info, hinfo, hc⟩ := mem_flatMap.mp hc
    obtain ⟨root, hroot, hstate⟩ := hreq.unloaded info hinfo c hc
    exact h.not_pending hroot (by simp [hstate])
  refine .of_iff ?_ ?_
  · intro c info hinfo
    have hstate := hreq.states c
    rw [hinfo] at hstate
    have hle := hnew c
    rw [hcount]
    split at hstate
    · rename_i hc
      have hpos := (hmem c).mp hc
      have hzero := hfresh c hc
      obtain ⟨info₀, -, rfl⟩ := map_eq_some_iff.mp hstate.symm
      simp only [true_iff]
      omega
    · rename_i hc
      have hnone := mt (hmem c).mpr hc
      have hzero : (batches.countP fun info => decide (c ∈ info.rootChunkIds)) = 0 := by omega
      rw [hzero, Nat.add_zero]
      exact h.inTransit_iff c info hstate.symm
  · intro c
    have hle := hnew c
    have honce := h.once c
    rw [hcount]
    by_cases hc : c ∈ batches.flatMap (·.rootChunkIds.elems)
    · have hzero := hfresh c hc
      omega
    · have hnone := mt (hmem c).mpr hc
      omega

theorem step_keeps {op : ManifestOp} (h : idx.InTransitBookkeeping) (hop : idx.KeepsInTransit op)
    (hstep : idx.step op = some idx') : idx'.InTransitBookkeeping := by
  cases op with
  | append delta concatenates =>
    cases hstep
    exact append_keeps h concatenates hop
  | prefetch pass =>
    obtain ⟨batches, hreq⟩ := prefetch_requested hop hstep
    exact hreq.keeps h
  | settle batch result =>
    cases hstep
    exact settle_keeps h batch result
  | receive store events =>
    cases hstep
    exact receive_keeps h hop
  | cancel =>
    cases hstep
    exact cancel_keeps h
  | storeEvents store events =>
    cases hstep
    exact storeEvents_keeps h hop

end Steps

/-! ## Current rows -/

/-- Every root chunk is in the row of the manifest that the index has for it. -/
def RowsMatch (idx : RrdManifestIndex) : Prop :=
  ∀ c info, idx.rootChunks.lookup c = some info →
    ((idx.manifest.elim [] (·.rows))[info.rowId]?).map (·.chunkId) = some c

theorem RowsMatch.current (h : idx.RowsMatch) : idx.RowsCurrent := by
  intro manifest hmanifest c info hinfo _
  simpa [hmanifest] using h c info hinfo

theorem RowsMatch.of_same {idx' : RrdManifestIndex} (h : idx.RowsMatch) (hmanifest : idx'.manifest = idx.manifest)
    (hrows : ∀ c info', idx'.rootChunks.lookup c = some info' →
      ∃ info, idx.rootChunks.lookup c = some info ∧ info'.rowId = info.rowId) : idx'.RowsMatch := by
  intro c info' hinfo'
  obtain ⟨info, hinfo, hrow⟩ := hrows c info' hinfo'
  rw [hmanifest, hrow]
  exact h c info hinfo

theorem foldl_markRootAs_manifest (l : List (ChunkId × LoadState)) (idx : RrdManifestIndex) :
    (l.foldl (fun idx mark => idx.markRootAs mark.2 mark.1) idx).manifest = idx.manifest := by
  induction l generalizing idx with
  | nil => rfl
  | cons mark l ih =>
    rw [foldl_cons, ih, markRootAs_frame]
    rfl

theorem RowsMatch.onEvents {idx : RrdManifestIndex} (h : idx.RowsMatch) (store : ChunkStore)
    (events : List ChunkStoreDiff) : (idx.onEvents store events).RowsMatch := by
  rw [onEvents_eq_foldl]
  refine h.of_same (foldl_markRootAs_manifest ..) ?_
  intro c info' hinfo'
  obtain ⟨-, hother, hmarked⟩ := foldl_markRootAs_lookup (idx.marksOf store events) idx c
  by_cases hc : c ∈ (idx.marksOf store events).map Prod.fst
  · obtain ⟨info, mark, hinfo, -, -, rfl⟩ := hmarked hc info' hinfo'
    exact ⟨info, hinfo, rfl⟩
  · exact ⟨info', hother hc ▸ hinfo', rfl⟩

theorem RowsMatch.setStates (h : idx.RowsMatch) (chunks : List ChunkId)
    (state : LoadState) : (idx.setStates chunks state).RowsMatch := by
  refine h.of_same (by rw [setStates_frame]) ?_
  intro c info' hinfo'
  rw [setStates_lookup] at hinfo'
  split at hinfo'
  · obtain ⟨info, hinfo, rfl⟩ := map_eq_some_iff.mp hinfo'
    exact ⟨info, hinfo, rfl⟩
  · exact ⟨info', hinfo', rfl⟩

theorem RowsMatch.append (h : idx.RowsMatch) (delta : RrdManifest) : (idx.append delta true).1.RowsMatch := by
  have hmanifest : (idx.append delta true).1.manifest.elim [] (·.rows) =
      idx.manifest.elim [] (·.rows) ++ delta.rows := by
    unfold RrdManifestIndex.append
    cases idx.manifest <;> rfl
  have hoffset : idx.manifest.elim 0 (·.rows.length) = (idx.manifest.elim [] (·.rows)).length := by
    cases idx.manifest <;> rfl
  intro c info hinfo
  rw [(append_frame delta true).1, hoffset] at hinfo
  rw [hmanifest]
  obtain ⟨hother, hlisted⟩ := insertRows_lookup delta.rows idx.rootChunks
    (idx.manifest.elim [] (·.rows)).length c
  by_cases hc : c ∈ delta.rows.map (·.chunkId)
  · obtain ⟨i, hi, hl⟩ := hlisted hc
    rw [hl] at hinfo
    cases hinfo
    rw [RootChunkInfo.new, List.getElem?_append_right (Nat.le_add_right ..), Nat.add_sub_cancel_left]
    exact hi
  · rw [hother hc] at hinfo
    have hold := h c info hinfo
    obtain ⟨row, hrow, -⟩ := map_eq_some_iff.mp hold
    rw [List.getElem?_append_left (List.getElem?_eq_some_iff.mp hrow).1]
    exact hold

def Concatenates (_ : RrdManifestIndex) : ManifestOp → Prop
  | .append _ concatenates => concatenates = true
  | _ => True

theorem step_rowsMatch {idx' : RrdManifestIndex} {op : ManifestOp} (h : idx.RowsMatch) (hop : idx.Concatenates op)
    (hstep : idx.step op = some idx') : idx'.RowsMatch := by
  cases op with
  | append delta concatenates =>
    cases hstep
    rw [show concatenates = true from hop]
    exact h.append delta
  | prefetch pass =>
    obtain ⟨batches, hreq⟩ := prefetch_requested h.current hstep
    refine h.of_same hreq.manifest ?_
    intro c info' hinfo'
    rw [hreq.states] at hinfo'
    split at hinfo'
    · obtain ⟨info, hinfo, rfl⟩ := map_eq_some_iff.mp hinfo'
      exact ⟨info, hinfo, rfl⟩
    · exact ⟨info', hinfo', rfl⟩
  | settle batch result =>
    cases hstep
    exact h
  | receive store events =>
    cases hstep
    exact @RowsMatch.onEvents idx.receiveFinished.2 h store events
  | cancel =>
    cases hstep
    unfold cancelOutdatedRequests
    split
    · exact h
    · simp only
      refine RowsMatch.setStates ?_ _ _
      exact h
  | storeEvents store events =>
    cases hstep
    exact h.onEvents store events

theorem rowsCurrent_of_concatenates {ops : List ManifestOp} {idx : RrdManifestIndex}
    (hsteps : StepsMeet Concatenates RrdManifestIndex.default ops)
    (hrun : RrdManifestIndex.default.run ops = some idx) : idx.RowsCurrent := by
  have hdefault : default.RowsMatch := by
    intro c info hinfo
    simp [default] at hinfo
  have hmatch : idx.RowsMatch :=
    run_induction (fun _ _ _ h hop hstep => step_rowsMatch h hop hstep) ops _ _ hdefault hsteps hrun
  exact hmatch.current

/-! ## Every run -/

theorem default_inTransitBookkeeping : RrdManifestIndex.default.InTransitBookkeeping := by
  refine .of_iff ?_ ?_
  · intro c info hinfo
    simp [default] at hinfo
  · intro c
    exact Nat.zero_le 1

/-- In every state that a run reaches whose steps keep it, a root chunk is in transit iff exactly one
pending request contains it. -/
theorem inTransit_bookkeeping {ops : List ManifestOp} {idx : RrdManifestIndex}
    (hsteps : StepsMeet KeepsInTransit RrdManifestIndex.default ops)
    (hrun : RrdManifestIndex.default.run ops = some idx) : idx.InTransitBookkeeping :=
  run_induction (fun _ _ _ h hop hstep => step_keeps h hop hstep) ops _ _
    default_inTransitBookkeeping hsteps hrun

def listedOne : RrdManifest where
  staticMap := ∅
  temporalMap := ∅
  rows := [⟨7, 10, 20⟩]

def fetchOne : PrefetchPass where
  store := ChunkStore.new ⟨0, 0, 0⟩
  tracker := ⟨[], [], [], [], []⟩
  maxOnWireBytesPerBatch := 1
  timeCursor := none
  queue := [⟨.everything, 7⟩]
  fetches := [(.everything, ⟨100, 100, ⟨100, by omega, by omega⟩⟩)]
  takes := fun _ => true
  abortsOnError := false

def listedTwo : RrdManifest where
  staticMap := ∅
  temporalMap := ∅
  rows := [⟨7, 10, 20⟩, ⟨8, 30, 20⟩]

def fetchBoth : PrefetchPass := { fetchOne with queue := [⟨.everything, 7⟩, ⟨.everything, 8⟩] }

def chunkSeven : Chunk := .ofColumns 7 ⟨["robot"]⟩ 0 [1] [(⟨"frame"⟩, [I64.sat 0])] [(⟨"position"⟩, [some []])]

def storeOfSeven : ChunkStore :=
  { ChunkStore.new ⟨0, 0, 0⟩ with chunksLineage := AList.insert 7 ⟨.rootFromManifest false, 1, true⟩ ∅ }

def fetchAndCancel : List ManifestOp :=
  [.append listedTwo true, .prefetch fetchBoth, .settle 0 (.ok [chunkSeven]),
    .receive storeOfSeven [.addition chunkSeven chunkSeven .volatile], .prefetch fetchOne, .cancel,
    .prefetch fetchBoth]

theorem inTransit_bookkeeping_fetchAndCancel :
    ∃ idx, RrdManifestIndex.default.run fetchAndCancel = some idx ∧
      idx.pendingCount 7 = 0 ∧ idx.pendingCount 8 = 1 ∧ idx.InTransitBookkeeping := by
  refine ⟨_, rfl, by decide, by decide, @inTransit_bookkeeping fetchAndCancel _ ?_ rfl⟩
  have hrows : ∀ n idx, default.run (fetchAndCancel.take n) = some idx → idx.RowsCurrent := by
    intro n idx hrun
    refine @rowsCurrent_of_concatenates (fetchAndCancel.take n) idx (.of_forall (fun op hop idx => ?_) _) hrun
    have hop := mem_of_mem_take hop
    simp only [fetchAndCancel, mem_cons, not_mem_nil, or_false] at hop
    rcases hop with rfl | rfl | rfl | rfl | rfl | rfl | rfl
    · rfl
    all_goals exact trivial
  refine .cons rfl (fun c _ => rfl) (.cons rfl (hrows 1 _ rfl) (.cons rfl trivial (.cons rfl ?_
    (.cons rfl (hrows 4 _ rfl) (.cons rfl trivial (.cons rfl (hrows 6 _ rfl) trivial))))))
  have hpolled : ∀ batch ∈ ((default.run (fetchAndCancel.take 3)).elim [] fun idx =>
      idx.chunkPrioritizer.chunkRequests), ∀ c ∈ batch.info.rootChunkIds,
      c = 7 ↔ (ChunkRequests.poll batch).2 = false := by decide
  exact fun batch hbatch c hc _ _ => mem_singleton.trans (hpolled batch hbatch c hc)

/-- A request that fails is dropped, and its chunk stays in transit. -/
theorem failed_request_stays_inTransit :
    ¬ ∀ (ops : List ManifestOp) (idx : RrdManifestIndex),
      RrdManifestIndex.default.run ops = some idx → idx.InTransitBookkeeping := by
  intro h
  have hrun := (h [.append listedOne true, .prefetch fetchOne, .settle 0 (.error ()),
    .receive (ChunkStore.new ⟨0, 0, 0⟩) []] _ rfl).inTransit_iff 7 ⟨0, .inTransit⟩ (by decide)
  exact absurd (hrun.mp rfl) (by decide)

end RrdManifestIndex

end Dalaran
