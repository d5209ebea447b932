import Dalaran.Manifest.InTransit

/-
  What the counts of the loaded ranges stand for.

  The count of a merged range should be the number of chunks of interest that it
  depends on and that are not fully loaded (`LoadedAccounting`). The counts are kept
  over one span of ranges for each chunk, so a chunk whose ranges are apart is also
  counted between them; the steps that keep the counts (`KeepsCounts`) meet no such
  chunk.
-/

namespace Dalaran

open List Option MergedRanges TimeInt Assoc

def OfInterest (componentsOfInterest : Finset ComponentPathKey)
    (paths : Assoc ChunkId (List ComponentPathKey)) (chunk : ChunkId) : Prop :=
  ∃ keys, paths.lookup chunk = some keys ∧ ∃ key ∈ keys, key ∈ componentsOfInterest

theorem MergedRanges.isChunkInteresting_iff {m : MergedRanges}
    {paths : Assoc ChunkId (List ComponentPathKey)} {chunk : ChunkId} :
    m.isChunkInteresting paths chunk = true ↔ OfInterest m.componentsOfInterest paths chunk := by
  unfold MergedRanges.isChunkInteresting OfInterest
  cases paths.lookup chunk with
  | none => simp
  | some keys => simp

/-- Every range of a manifest is temporal and does not end before it starts. -/
def DlrManifest.RangesValid (manifest : DlrManifest) : Prop :=
  ∀ key entry, manifest.temporalMap.lookup key = some entry →
    TimeInt.MIN ≤ entry.timeRange.min ∧ entry.timeRange.min ≤ entry.timeRange.max

namespace RrdManifestIndex

/-! ## The accounting -/

/-- The count of a merged range: no count without a chunk of interest. -/
def unloadedCountOf (idx : RrdManifestIndex) (m : MergedRanges) (r : TimeRange) : Option Nat :=
  tally idx.isUnloaded
    (r.dependsOn.elems.filter (m.isChunkInteresting idx.chunkPrioritizer.componentPathsFromRootId))

/-- The resolved ranges are the merged ranges of their timeline with the right counts, and the loaded
ranges are in order and share no more than an end with a range that misses a chunk of interest. -/
structure LoadedAccounting (idx : RrdManifestIndex) : Prop where
  counts : ∀ loaded, idx.loadedRanges = some loaded →
    ∃ timelineRange, idx.timelines.lookup loaded.timeline = some timelineRange ∧
      loaded.ranges.ranges = (idx.mergedOn loaded.timeline timelineRange).map fun r =>
        ⟨r.range.max, idx.unloadedCountOf loaded.ranges r⟩
  ordered : ∀ timeline, (idx.loadedRangesOnTimeline timeline).Pairwise fun a b => a.max ≤ b.min
  apart : ∀ loaded timelineRange, idx.loadedRanges = some loaded →
    idx.timelines.lookup loaded.timeline = some timelineRange →
    ∀ r ∈ idx.mergedOn loaded.timeline timelineRange,
      (∃ chunk ∈ r.dependsOn, OfInterest loaded.ranges.componentsOfInterest
        idx.chunkPrioritizer.componentPathsFromRootId chunk ∧ idx.isUnloaded chunk = true) →
      ∀ o ∈ idx.loadedRangesOnTimeline loaded.timeline, o.max ≤ r.range.min ∨ r.range.max ≤ o.min

def KeepsCounts (idx : RrdManifestIndex) : ManifestOp → Prop
  | .append delta _ => delta.RangesValid
  | .prefetch pass => idx.RowsCurrent ∧
    ∀ timeline timelineRange, pass.timeCursor = some timeline → idx.timelines.lookup timeline = some timelineRange →
      ∀ chunk, OfInterest (idx.chunkPrioritizer.interestOf pass.store pass.tracker)
        idx.chunkPrioritizer.componentPathsFromRootId chunk →
        MergedRanges.Contiguous (idx.mergedOn timeline timelineRange) chunk
  | .settle _ _ => True
  | .receive _ _ => True
  | .cancel => ∀ batch ∈ idx.chunkPrioritizer.chunkRequests,
    ChunkRequests.outdated idx.chunkPrioritizer.protectedChunks.roots batch = true →
    ∀ chunk ∈ batch.info.rootChunkIds, idx.isUnloaded chunk = false →
      ∀ loaded, idx.loadedRanges = some loaded →
        OfInterest loaded.ranges.componentsOfInterest idx.chunkPrioritizer.componentPathsFromRootId chunk →
        loaded.ranges.rangesFromChunk.lookup chunk = none
  | .storeEvents _ _ => True

/-! ## The ranges of a manifest -/

/-- A range is valid, and its timeline reaches as far. -/
def Reaches (timelines : Assoc TimelineName AbsoluteTimeRange) (timeline : TimelineName)
    (range : AbsoluteTimeRange) : Prop :=
  (TimeInt.MIN ≤ range.min ∧ range.min ≤ range.max) ∧
    ∃ timelineRange, timelines.lookup timeline = some timelineRange ∧ range.max ≤ timelineRange.max

structure TimelinesReach (idx : RrdManifestIndex) : Prop where
  manifest : ∀ manifest, idx.manifest = some manifest → ∀ key entry,
    manifest.temporalMap.lookup key = some entry → Reaches idx.timelines key.2.1.name entry.timeRange
  sorted : ∀ key infos, idx.sortedChunks.lookup key = some infos → ∀ info ∈ infos,
    Reaches idx.timelines key.1 info.timeRange

theorem Reaches.extend {timelines : Assoc TimelineName AbsoluteTimeRange} {timeline timeline' : TimelineName}
    {range range' : AbsoluteTimeRange} (h : Reaches timelines timeline range) :
    Reaches (extendTimeline timelines timeline' range') timeline range := by
  obtain ⟨hvalid, timelineRange, hlookup, hmax⟩ := h
  refine ⟨hvalid, ?_⟩
  unfold extendTimeline
  simp only
  split
  · exact ⟨timelineRange, hlookup, hmax⟩
  · rw [lookup_insert_ite]
    split
    · rename_i heq
      subst heq
      refine ⟨_, rfl, hmax.trans ?_⟩
      rw [hlookup]
      exact le_max_left ..
    · exact ⟨timelineRange, hlookup, hmax⟩

theorem reaches_extendTimeline {timelines : Assoc TimelineName AbsoluteTimeRange}
    {timeline : TimelineName} {range : AbsoluteTimeRange} (hmin : TimeInt.MIN ≤ range.min)
    (hle : range.min ≤ range.max) : Reaches (extendTimeline timelines timeline range) timeline range := by
  refine ⟨⟨hmin, hle⟩, ?_⟩
  unfold extendTimeline
  set old := (timelines.lookup timeline).getD AbsoluteTimeRange.EMPTY with hold
  have hne : old.union range ≠ AbsoluteTimeRange.EMPTY := by
    intro heq
    have h₁ : (old.union range).min ≤ range.min := min_le_right ..
    have h₂ : range.max ≤ (old.union range).max := le_max_right ..
    rw [heq] at h₁ h₂
    have hempty : MAX ≤ MIN := h₁.trans (hle.trans h₂)
    exact absurd hempty (by decide)
  rw [if_neg hne, lookup_insert_ite, if_pos rfl]
  exact ⟨_, rfl, le_max_right ..⟩

theorem updateTimelineStats_reaches {delta : DlrManifest} (hdelta : delta.RangesValid)
    (timelines : Assoc TimelineName AbsoluteTimeRange) :
    (∀ timeline range, Reaches timelines timeline range →
        Reaches (updateTimelineStats timelines delta) timeline range) ∧
      ∀ key entry, delta.temporalMap.lookup key = some entry →
        Reaches (updateTimelineStats timelines delta) key.2.1.name entry.timeRange := by
  have hentry : ∀ e ∈ toList delta.temporalMap,
      MIN ≤ e.2.timeRange.min ∧ e.2.timeRange.min ≤ e.2.timeRange.max := fun e he =>
    hdelta e.1 e.2 (Assoc.mem_toList.mp he)
  have hfold : ∀ (l : List _) (timelines : Assoc TimelineName AbsoluteTimeRange),
      (∀ e ∈ l, MIN ≤ e.2.timeRange.min ∧ e.2.timeRange.min ≤ e.2.timeRange.max) →
      (∀ timeline range, Reaches timelines timeline range → Reaches (l.foldl
          (fun timelines (e : (EntityPath × Timeline × ComponentIdentifier × ChunkId) ×
            DlrManifestTemporalMapEntry) => extendTimeline timelines e.1.2.1.name e.2.timeRange) timelines)
          timeline range) ∧
        ∀ e ∈ l, Reaches (l.foldl
          (fun timelines (e : (EntityPath × Timeline × ComponentIdentifier × ChunkId) ×
            DlrManifestTemporalMapEntry) => extendTimeline timelines e.1.2.1.name e.2.timeRange) timelines)
          e.1.2.1.name e.2.timeRange := by
    intro l
    induction l with
    | nil => exact fun timelines _ => ⟨fun _ _ h => h, by simp⟩
    | cons e l ih =>
      intro timelines hl
      obtain ⟨hold, hnew⟩ := ih (extendTimeline timelines e.1.2.1.name e.2.timeRange)
        fun e' he' => hl e' (mem_cons_of_mem _ he')
      obtain ⟨hmin, hle⟩ := hl e mem_cons_self
      refine ⟨fun timeline range h => hold timeline range h.extend, ?_⟩
      intro e' he'
      rcases mem_cons.mp he' with rfl | he'
      · exact hold _ _ (reaches_extendTimeline hmin hle)
      · exact hnew e' he'
  obtain ⟨hold, hnew⟩ := hfold _ timelines hentry
  exact ⟨hold, fun key entry h => hnew (key, entry) (mem_toList.mpr h)⟩

theorem concat_temporalMap {concatenates : Bool} {a b full : RrdManifest}
    (h : RrdManifest.concat concatenates a b = some full)
    {key : EntityPath × Timeline × ComponentIdentifier × ChunkId} {entry : DlrManifestTemporalMapEntry}
    (hentry : full.temporalMap.lookup key = some entry) :
    a.temporalMap.lookup key = some entry ∨ b.temporalMap.lookup key = some entry := by
  unfold RrdManifest.concat at h
  split at h
  · cases h
    have hfold : ∀ (l : List _) (s : Assoc (EntityPath × Timeline × ComponentIdentifier × ChunkId)
        DlrManifestTemporalMapEntry), (l.foldl (fun s e => s.insert e.1 e.2) s).lookup key = some entry →
        s.lookup key = some entry ∨ (key, entry) ∈ l := by
      intro l
      induction l with
      | nil => exact fun s h => .inl h
      | cons e l ih =>
        intro s h
        rcases ih _ h with h | h
        · rw [lookup_insert_ite] at h
          split at h
          · rename_i heq
            cases h
            exact .inr (heq ▸ mem_cons_self)
          · exact .inl h
        · exact .inr (mem_cons_of_mem _ h)
    exact (hfold _ _ hentry).imp_right Assoc.mem_toList.mp
  · cases h

end RrdManifestIndex

theorem SortedTemporalChunks.lookup_collect (manifest : DlrManifest) (key : TimelineName × ComponentPathKey) :
    ((collect manifest).lookup key).getD [] = ((Assoc.toList manifest.temporalMap).filter fun e =>
      decide ((e.1.2.1.name, (⟨e.1.1, e.1.2.2.1⟩ : ComponentPathKey)) = key)).map fun e =>
        ⟨e.1.2.2.2, e.2.timeRange, e.2.numRows⟩ := by
  have hfold : ∀ (l : List ((EntityPath × Timeline × ComponentIdentifier × ChunkId) ×
      DlrManifestTemporalMapEntry)) (s : SortedTemporalChunks),
      ((l.foldl (fun s e => upsert s (e.1.2.1.name, ⟨e.1.1, e.1.2.2.1⟩) []
        (· ++ [⟨e.1.2.2.2, e.2.timeRange, e.2.numRows⟩])) s).lookup key).getD [] =
        (s.lookup key).getD [] ++ (l.filter fun e =>
          decide ((e.1.2.1.name, (⟨e.1.1, e.1.2.2.1⟩ : ComponentPathKey)) = key)).map fun e =>
            ⟨e.1.2.2.2, e.2.timeRange, e.2.numRows⟩ := by
    intro l
    induction l with
    | nil => exact fun s => (append_nil _).symm
    | cons e l ih =>
      intro s
      rw [foldl_cons, ih, lookup_upsert]
      by_cases hkey : (e.1.2.1.name, (⟨e.1.1, e.1.2.2.1⟩ : ComponentPathKey)) = key
      · rw [if_pos hkey.symm, filter_cons, if_pos (decide_eq_true hkey), hkey]
        simp
      · rw [if_neg (Ne.symm hkey), filter_cons, if_neg (by simpa using hkey)]
  exact (hfold _ ∅).trans (by simp)

theorem SortedTemporalChunks.mem_new {manifest : DlrManifest} {key : TimelineName × ComponentPathKey}
    {infos : List ChunkCountInfo} (h : (new manifest).lookup key = some infos) {info : ChunkCountInfo}
    (hinfo : info ∈ infos) : ∃ key' entry, manifest.temporalMap.lookup key' = some entry ∧
      key'.2.1.name = key.1 ∧ info.timeRange = entry.timeRange := by
  unfold new at h
  rw [lookup_map] at h
  obtain ⟨chunks, hchunks, rfl⟩ := map_eq_some_iff.mp h
  have hmem : info ∈ chunks :=
    (mem_insertionSort _).mp ((destutter_sublist _ _).subset ((mem_insertionSort _).mp hinfo))
  have hlisted := lookup_collect manifest key
  rw [hchunks, getD_some] at hlisted
  obtain ⟨e, he, rfl⟩ := mem_map.mp (hlisted ▸ hmem)
  obtain ⟨he, hkey⟩ := mem_filter.mp he
  exact ⟨e.1, e.2, Assoc.mem_toList.mp he, congrArg Prod.fst (of_decide_eq_true hkey), rfl⟩

namespace RrdManifestIndex

theorem withLastMax_valid {bound : TimeInt} {l : List TimeRange}
    (h : ∀ r ∈ l, r.Valid ∧ r.range.max ≤ bound) :
    ∀ r ∈ withLastMax bound l, r.Valid ∧ r.range.max ≤ bound := by
  induction l with
  | nil => exact h
  | cons a l ih =>
    obtain ⟨⟨hmin, hle⟩, hmax⟩ := h a mem_cons_self
    cases l with
    | nil =>
      intro r hr
      rw [mem_singleton.mp hr]
      exact ⟨⟨hmin, hle.trans hmax⟩, le_refl bound⟩
    | cons b l =>
      intro r hr
      rcases mem_cons.mp hr with rfl | hr
      · exact ⟨⟨hmin, hle⟩, hmax⟩
      · exact ih (fun r hr => h r (mem_cons_of_mem _ hr)) r hr

variable {timeline : TimelineName}

theorem mergedOn_adjacent {idx : RrdManifestIndex} (h : idx.TimelinesReach) {timelineRange : AbsoluteTimeRange}
    (hlookup : idx.timelines.lookup timeline = some timelineRange) :
    (idx.mergedOn timeline timelineRange).IsChain (fun a b => a.range.max = b.range.min) ∧
      ∀ r ∈ idx.mergedOn timeline timelineRange, r.Valid ∧ r.range.max ≤ timelineRange.max := by
  apply mergeRanges_adjacent
  intro r hr
  obtain ⟨infos, hinfos, hr⟩ := mem_flatMap.mp hr
  obtain ⟨⟨key, infos⟩, hkey, rfl⟩ := List.mem_map.mp hinfos
  obtain ⟨hmem, hname⟩ := mem_filter.mp hkey
  have hentry := h.sorted key infos (Assoc.mem_toList.mp hmem)
  refine withLastMax_valid (mergeRanges_adjacent ?_).2 r hr
  intro r hr
  obtain ⟨info, hinfo, rfl⟩ := List.mem_map.mp hr
  obtain ⟨hvalid, timelineRange', hlookup', hmax⟩ := hentry info hinfo
  rw [of_decide_eq_true hname, hlookup] at hlookup'
  exact ⟨hvalid, some.inj hlookup' ▸ hmax⟩

/-! ## The invariant -/

structure Cached (idx : RrdManifestIndex) (m : MergedRanges) (merged : List TimeRange) : Prop where
  start : m.startTime = merged.foldl (fun t r => min t r.range.min) TimeInt.MAX
  ends : m.ranges.map (·.endTime) = merged.map (·.range.max)
  spans : m.rangesFromChunk = MergedRanges.spansOf merged
  counts : m.Counts idx.chunkPrioritizer.componentPathsFromRootId idx.isUnloaded
  contiguous : ∀ chunk,
    OfInterest m.componentsOfInterest idx.chunkPrioritizer.componentPathsFromRootId chunk →
      MergedRanges.Contiguous merged chunk

/-- What every step keeps: the loaded ranges are those of the merged ranges of their timeline. -/
structure CountsKept (idx : RrdManifestIndex) : Prop where
  reach : idx.TimelinesReach
  loaded : ∀ loaded, idx.loadedRanges = some loaded →
    ∃ timelineRange, idx.timelines.lookup loaded.timeline = some timelineRange ∧
      idx.Cached loaded.ranges (idx.mergedOn loaded.timeline timelineRange)

variable {merged : List TimeRange}

theorem foldl_min_le {t : TimeInt} : merged.foldl (fun t r => min t r.range.min) t ≤ t := by
  induction merged generalizing t with
  | nil => exact le_refl t
  | cons a merged ih => exact ih.trans (min_le_left ..)

theorem le_foldl_min {t low : TimeInt} (ht : low ≤ t)
    (h : ∀ r ∈ merged, low ≤ r.range.min) : low ≤ merged.foldl (fun t r => min t r.range.min) t := by
  induction merged generalizing t with
  | nil => exact ht
  | cons a merged ih =>
    exact ih (le_min ht (h a mem_cons_self)) fun r hr => h r (mem_cons_of_mem _ hr)

theorem head_min_le {a : TimeRange} (hvalid : ∀ r ∈ a :: merged, r.Valid)
    (hchain : (a :: merged).IsChain fun a b => a.range.max = b.range.min) :
    ∀ r ∈ merged, a.range.min ≤ r.range.min := by
  induction merged generalizing a with
  | nil => simp
  | cons b merged ih =>
    obtain ⟨hab, hrest⟩ := isChain_cons_cons.mp hchain
    have hle : a.range.min ≤ b.range.min := hab ▸ (hvalid a mem_cons_self).2
    intro r hr
    rcases mem_cons.mp hr with rfl | hr
    · exact hle
    · exact hle.trans (ih (fun r hr => hvalid r (mem_cons_of_mem _ hr)) hrest r hr)

theorem foldl_min_eq_head (hvalid : ∀ r ∈ merged, r.Valid)
    (hchain : merged.IsChain fun a b => a.range.max = b.range.min) :
    ∀ a ∈ merged.head?, a.range.min = merged.foldl (fun t r => min t r.range.min) TimeInt.MAX := by
  intro a ha
  cases merged with
  | nil => cases ha
  | cons b merged =>
    cases ha
    rw [foldl_cons, min_eq_right (le_MAX _)]
    exact le_antisymm (le_foldl_min (le_refl _) (head_min_le hvalid hchain)) foldl_min_le

theorem ends_isChain (hvalid : ∀ r ∈ merged, r.Valid) (hchain : merged.IsChain fun a b => a.range.max = b.range.min)
    {start : TimeInt} (hstart : ∀ a ∈ merged.head?, a.range.min = start) :
    (start :: merged.map (·.range.max)).IsChain (· ≤ ·) := by
  induction merged generalizing start with
  | nil => simp
  | cons a merged ih =>
    obtain ⟨hnext, hrest⟩ := isChain_cons.mp hchain
    refine isChain_cons_cons.mpr ⟨?_, ?_⟩
    · exact hstart a rfl ▸ (hvalid a mem_cons_self).2
    · exact ih (fun r hr => hvalid r (mem_cons_of_mem _ hr)) hrest fun b hb => (hnext b hb).symm

section Accounting

variable {idx : RrdManifestIndex}

theorem Cached.ranges_eq {m : MergedRanges} (h : idx.Cached m merged) :
    m.ranges = merged.map fun r => ⟨r.range.max, idx.unloadedCountOf m r⟩ := by
  apply ext_getElem?
  intro i
  have hends := congrArg (·[i]?) h.ends
  simp only [List.getElem?_map] at hends ⊢
  cases hr : merged[i]? with
  | none =>
    rw [hr] at hends
    simpa using hends
  | some r =>
    rw [hr] at hends
    obtain ⟨x, hx, hend⟩ := map_eq_some_iff.mp hends
    rw [hx, map_some, some_inj]
    have hcount : x.unloadedCount = idx.unloadedCountOf m r := by
      rw [h.counts i x hx]
      exact tally_perm (chunksAt_perm h.spans
        (fun chunk hc => h.contiguous chunk (isChunkInteresting_iff.mp hc)) hr)
    have hmax : r.range.max = x.endTime := hend.symm
    rw [hmax, ← hcount]

theorem Cached.loadedRanges {m : MergedRanges} (h : idx.Cached m merged)
    (hchain : merged.IsChain fun a b => a.range.max = b.range.min) (hvalid : ∀ r ∈ merged, r.Valid) :
    m.loadedRanges.Pairwise (fun a b => a.max ≤ b.min) ∧
      ∀ r ∈ merged, (∃ chunk ∈ r.dependsOn, OfInterest m.componentsOfInterest
        idx.chunkPrioritizer.componentPathsFromRootId chunk ∧ idx.isUnloaded chunk = true) →
        ∀ o ∈ m.loadedRanges, o.max ≤ r.range.min ∨ r.range.max ≤ o.min := by
  have hhead := foldl_min_eq_head hvalid hchain
  have hends : (m.startTime :: m.ranges.map (·.endTime)).IsChain (· ≤ ·) := by
    rw [h.ends, h.start]
    exact ends_isChain hvalid hchain hhead
  have hstart : MIN ≤ m.startTime := by
    rw [h.start]
    exact le_foldl_min (le_MAX _) fun r hr => (hvalid r hr).1
  obtain ⟨hordered, hapart⟩ := loadedRanges_spec hstart hends
  refine ⟨hordered, ?_⟩
  intro r hr hmissing
  obtain ⟨chunk, hmem, hinterest, hunloaded⟩ := hmissing
  obtain ⟨i, hi⟩ := mem_iff_getElem?.mp hr
  -- The chunk is counted, so the count of the range is not zero.
  have hfilter : chunk ∈ r.dependsOn.elems.filter
      (m.isChunkInteresting idx.chunkPrioritizer.componentPathsFromRootId) :=
    mem_filter.mpr ⟨hmem, isChunkInteresting_iff.mpr hinterest⟩
  have hpos : 0 < (r.dependsOn.elems.filter
      (m.isChunkInteresting idx.chunkPrioritizer.componentPathsFromRootId)).countP idx.isUnloaded :=
    countP_pos_iff.mpr ⟨chunk, hfilter, hunloaded⟩
  obtain ⟨n, hn⟩ := Nat.exists_eq_succ_of_ne_zero hpos.ne'
  have hcount : idx.unloadedCountOf m r = some (n + 1) := by
    rw [unloadedCountOf, tally_of_ne_nil (ne_nil_of_mem hfilter), hn]
  have hx : m.ranges[i]? = some ⟨r.range.max, some (n + 1)⟩ := by
    rw [h.ranges_eq, List.getElem?_map, hi, map_some, hcount]
  refine hapart r.range (mem_missingFrom h.ends hchain ?_ i r _ n hi hx rfl)
  rw [h.start]
  exact hhead

theorem CountsKept.accounting (h : idx.CountsKept) : idx.LoadedAccounting where
  counts loaded hloaded := by
    obtain ⟨timelineRange, hlookup, hcached⟩ := h.loaded loaded hloaded
    exact ⟨timelineRange, hlookup, hcached.ranges_eq⟩
  ordered timeline := by
    unfold loadedRangesOnTimeline
    split
    · rename_i loaded hloaded
      split
      · obtain ⟨timelineRange, hlookup, hcached⟩ := h.loaded loaded hloaded
        obtain ⟨hchain, hvalid⟩ := mergedOn_adjacent h.reach hlookup
        exact (hcached.loadedRanges hchain fun r hr => (hvalid r hr).1).1
      · exact List.Pairwise.nil
    · exact List.Pairwise.nil
  apart loaded timelineRange hloaded hlookup := by
    obtain ⟨timelineRange', hlookup', hcached⟩ := h.loaded loaded hloaded
    rw [hlookup] at hlookup'
    cases hlookup'
    obtain ⟨hchain, hvalid⟩ := mergedOn_adjacent h.reach hlookup
    have hapart := (hcached.loadedRanges hchain fun r hr => (hvalid r hr).1).2
    unfold loadedRangesOnTimeline
    rw [hloaded]
    simpa using hapart

end Accounting

/-! ## Every step -/

section Steps

variable {idx idx' : RrdManifestIndex}

theorem isUnloaded_eq (idx : RrdManifestIndex) (c : ChunkId) :
    idx.isUnloaded c = (idx.rootChunks.lookup c).all fun info => !info.state.isFullyLoaded := by
  unfold isUnloaded
  cases idx.rootChunks.lookup c <;> rfl

theorem mergedOn_congr (h : idx'.sortedChunks = idx.sortedChunks) (timeline : TimelineName)
    (timelineRange : AbsoluteTimeRange) :
    idx'.mergedOn timeline timelineRange = idx.mergedOn timeline timelineRange := by
  unfold mergedOn
  rw [h]

theorem CountsKept.of_same (h : idx.CountsKept) (hmanifest : idx'.manifest = idx.manifest)
    (hsorted : idx'.sortedChunks = idx.sortedChunks) (htimelines : idx'.timelines = idx.timelines)
    (hpaths : idx'.chunkPrioritizer.componentPathsFromRootId = idx.chunkPrioritizer.componentPathsFromRootId)
    (hloaded : idx'.loadedRanges = idx.loadedRanges)
    (hunloaded : ∀ loaded, idx.loadedRanges = some loaded → ∀ chunk,
      OfInterest loaded.ranges.componentsOfInterest idx.chunkPrioritizer.componentPathsFromRootId chunk →
      loaded.ranges.rangesFromChunk.lookup chunk ≠ none →
      idx.isUnloaded chunk = idx'.isUnloaded chunk) : idx'.CountsKept where
  reach :=
    { manifest := by
        rw [hmanifest, htimelines]
        exact h.reach.manifest
      sorted := by
        rw [hsorted, htimelines]
        exact h.reach.sorted }
  loaded loaded hl := by
    rw [hloaded] at hl
    obtain ⟨timelineRange, hlookup, hcached⟩ := h.loaded loaded hl
    refine ⟨timelineRange, htimelines ▸ hlookup, ?_⟩
    rw [mergedOn_congr hsorted]
    refine ⟨hcached.start, hcached.ends, hcached.spans, ?_, hpaths ▸ hcached.contiguous⟩
    rw [hpaths]
    intro i r hr
    rw [hcached.counts i r hr]
    refine tally_congr fun chunk hchunk => ?_
    obtain ⟨hinteresting, span, hspan, -⟩ := mem_chunksAt.mp hchunk
    exact hunloaded loaded hl chunk (isChunkInteresting_iff.mp hinteresting) (by simp [hspan])

theorem append_countsKept (h : idx.CountsKept) {delta : RrdManifest} (concatenates : Bool)
    (hdelta : delta.RangesValid) : (idx.append delta concatenates).1.CountsKept := by
  obtain ⟨hold, hnew⟩ := updateTimelineStats_reaches hdelta idx.timelines
  have hsortedNew : ∀ manifest : DlrManifest, (∀ key entry, manifest.temporalMap.lookup key = some entry →
      Reaches (updateTimelineStats idx.timelines delta.toDlrManifest) key.2.1.name entry.timeRange) →
      ∀ key infos, (SortedTemporalChunks.new manifest).lookup key = some infos → ∀ info ∈ infos,
        Reaches (updateTimelineStats idx.timelines delta.toDlrManifest) key.1 info.timeRange := by
    intro manifest hmanifest key infos hinfos info hinfo
    obtain ⟨key', entry, hentry, hname, hrange⟩ := SortedTemporalChunks.mem_new hinfos hinfo
    rw [← hname, hrange]
    exact hmanifest key' entry hentry
  unfold append
  cases hm : idx.manifest with
  | none =>
    refine ⟨⟨?_, hsortedNew delta.toDlrManifest hnew⟩, fun loaded hl => by cases hl⟩
    intro manifest hmanifest
    cases hmanifest
    exact hnew
  | some existing =>
    simp only
    cases hc : RrdManifest.concat concatenates existing delta with
    | none =>
      refine ⟨⟨fun manifest hmanifest => (by cases hmanifest), ?_⟩, fun loaded hl => by cases hl⟩
      exact fun key infos hinfos info hinfo => hold _ _ (h.reach.sorted key infos hinfos info hinfo)
    | some full =>
      have hfull : ∀ key entry, full.temporalMap.lookup key = some entry →
          Reaches (updateTimelineStats idx.timelines delta.toDlrManifest) key.2.1.name entry.timeRange := by
        intro key entry hentry
        rcases concat_temporalMap hc hentry with hentry | hentry
        · exact hold _ _ (h.reach.manifest existing hm key entry hentry)
        · exact hnew key entry hentry
      refine ⟨⟨?_, hsortedNew full.toDlrManifest hfull⟩, fun loaded hl => by cases hl⟩
      intro manifest hmanifest
      cases hmanifest
      exact hfull

theorem markRootAs_countsKept (h : idx.CountsKept) (newState : LoadState) (chunk : ChunkId) :
    (idx.markRootAs newState chunk).CountsKept := by
  cases hinfo : idx.rootChunks.lookup chunk with
  | none =>
    have hsame : idx.markRootAs newState chunk = idx := by
      unfold markRootAs
      rw [hinfo]
    exact hsame.symm ▸ h
  | some info =>
    have hframe := markRootAs_frame idx newState chunk
    have hother : ∀ b, b ≠ chunk → idx.isUnloaded b = (idx.markRootAs newState chunk).isUnloaded b := by
      intro b hb
      rw [isUnloaded_eq, isUnloaded_eq, markRootAs_rootChunks, setState_lookup, if_neg hb]
    have hbefore : idx.isUnloaded chunk = !info.state.isFullyLoaded := by
      rw [isUnloaded_eq, hinfo]
      rfl
    have hafter : (idx.markRootAs newState chunk).isUnloaded chunk = !newState.isFullyLoaded := by
      rw [isUnloaded_eq, markRootAs_rootChunks, setState_lookup, if_pos rfl, hinfo]
      rfl
    refine ⟨⟨?_, ?_⟩, ?_⟩
    · rw [hframe]
      exact h.reach.manifest
    · rw [hframe]
      exact h.reach.sorted
    · intro loaded hl
      have hloaded : (idx.markRootAs newState chunk).loadedRanges = idx.loadedRanges.map fun loadedRanges =>
          if info.state.isFullyLoaded ≠ newState.isFullyLoaded then
            if newState.isFullyLoaded then
              { loadedRanges with
                ranges := loadedRanges.ranges.onChunkLoaded chunk
                  idx.chunkPrioritizer.componentPathsFromRootId }
            else
              { loadedRanges with
                ranges := loadedRanges.ranges.onChunkUnloaded chunk
                  idx.chunkPrioritizer.componentPathsFromRootId }
          else loadedRanges := by
        unfold markRootAs
        rw [hinfo]
      rw [hloaded] at hl
      obtain ⟨before, hl₀, rfl⟩ := map_eq_some_iff.mp hl
      obtain ⟨timelineRange, hlookup, hcached⟩ := h.loaded before hl₀
      have hpaths : (idx.markRootAs newState chunk).chunkPrioritizer.componentPathsFromRootId =
          idx.chunkPrioritizer.componentPathsFromRootId := by rw [markRootAs_prioritizer]
      have hmerged : ∀ timeline, (idx.markRootAs newState chunk).mergedOn timeline timelineRange =
          idx.mergedOn timeline timelineRange := fun timeline =>
        mergedOn_congr (by rw [hframe]; rfl) timeline timelineRange
      -- A change of the counts of one chunk leaves the rest as it was.
      have hchanged : ∀ f, (before.ranges.onChunk f chunk
          idx.chunkPrioritizer.componentPathsFromRootId).Counts
            idx.chunkPrioritizer.componentPathsFromRootId (idx.markRootAs newState chunk).isUnloaded →
          (idx.markRootAs newState chunk).Cached (before.ranges.onChunk f chunk
            idx.chunkPrioritizer.componentPathsFromRootId) (idx.mergedOn before.timeline timelineRange) := by
        intro f hcounts
        obtain ⟨hstart, hspans, hends, hinterest⟩ := before.ranges.onChunk_frame f chunk
          idx.chunkPrioritizer.componentPathsFromRootId
        refine ⟨hstart.trans hcached.start, hends.trans hcached.ends, hspans.trans hcached.spans,
          hpaths.symm ▸ hcounts, ?_⟩
        rw [hpaths, hinterest]
        exact hcached.contiguous
      have hlookup' : (idx.markRootAs newState chunk).timelines.lookup before.timeline = some timelineRange := by
        rw [hframe]
        exact hlookup
      by_cases hne : info.state.isFullyLoaded ≠ newState.isFullyLoaded
      · rw [if_pos hne]
        by_cases hnew : newState.isFullyLoaded = true
        · rw [if_pos hnew]
          refine ⟨timelineRange, hlookup', ?_⟩
          rw [hmerged]
          refine hchanged _ (onChunkLoaded_counts hcached.counts ?_ ?_ hother)
          · rw [hbefore]
            simpa [hnew] using hne
          · rw [hafter, hnew]
            rfl
        · rw [if_neg hnew]
          refine ⟨timelineRange, hlookup', ?_⟩
          rw [hmerged]
          refine hchanged _ (onChunkUnloaded_counts hcached.counts ?_ ?_ hother)
          · rw [hbefore]
            simpa [hnew] using hne
          · rw [hafter]
            simpa using hnew
      · rw [if_neg hne]
        refine ⟨timelineRange, hlookup', ?_⟩
        rw [hmerged]
        refine ⟨hcached.start, hcached.ends, hcached.spans, ?_, hpaths.symm ▸ hcached.contiguous⟩
        have hunloaded : idx.isUnloaded = (idx.markRootAs newState chunk).isUnloaded := by
          funext b
          by_cases hb : b = chunk
          · subst hb
            rw [hbefore, hafter, not_ne_iff.mp hne]
          · exact hother b hb
        rw [hpaths, ← hunloaded]
        exact hcached.counts

theorem onEvents_countsKept (h : idx.CountsKept) (store : ChunkStore) (events : List ChunkStoreDiff) :
    (idx.onEvents store events).CountsKept := by
  rw [onEvents_eq_foldl]
  generalize idx.marksOf store events = marks
  induction marks generalizing idx with
  | nil => exact h
  | cons mark marks ih => exact ih (markRootAs_countsKept h mark.2 mark.1)

theorem cancel_countsKept (h : idx.CountsKept) (hop : idx.KeepsCounts .cancel) :
    idx.cancelOutdatedRequests.CountsKept := by
  unfold cancelOutdatedRequests
  split
  · exact h
  · simp only [ChunkRequests.cancelOutdatedRequests]
    generalize hkept : (⟨idx.manifest, idx.rootChunks, _, idx.sortedChunks, idx.loadedRanges,
      idx.timelines⟩ : RrdManifestIndex) = kept
    set cancelled := (idx.chunkPrioritizer.chunkRequests.filter
      (ChunkRequests.outdated idx.chunkPrioritizer.protectedChunks.roots)).flatMap
        (·.info.rootChunkIds.elems) with hcancelled
    change (kept.setStates cancelled .unloaded).CountsKept
    subst hkept
    have hframe := setStates_frame cancelled .unloaded
      { idx with chunkPrioritizer :=
        { idx.chunkPrioritizer with
          chunkRequests := idx.chunkPrioritizer.chunkRequests.filter fun batch =>
            !ChunkRequests.outdated idx.chunkPrioritizer.protectedChunks.roots batch } }
    refine h.of_same (by rw [hframe]) (by rw [hframe]) (by rw [hframe]) (by rw [hframe])
      (by rw [hframe]) ?_
    intro loaded hl chunk hinterest hspan
    rw [isUnloaded_eq, isUnloaded_eq, setStates_lookup]
    split
    · rename_i hmem
      obtain ⟨batch, hbatch, hchunk⟩ := mem_flatMap.mp hmem
      obtain ⟨hbatch, hout⟩ := mem_filter.mp hbatch
      cases hunloaded : idx.isUnloaded chunk with
      | false => exact absurd (hop batch hbatch hout chunk hchunk hunloaded loaded hl hinterest) hspan
      | true =>
        rw [isUnloaded_eq] at hunloaded
        rw [hunloaded]
        cases idx.rootChunks.lookup chunk with
        | none => rfl
        | some info => rfl
    · rfl

theorem rebuildLoadedRanges_countsKept (h : idx.CountsKept)
    (hcontiguous : ∀ timelineRange, idx.timelines.lookup timeline = some timelineRange → ∀ chunk,
      OfInterest idx.chunkPrioritizer.componentsOfInterest idx.chunkPrioritizer.componentPathsFromRootId
        chunk → MergedRanges.Contiguous (idx.mergedOn timeline timelineRange) chunk) :
    (idx.rebuildLoadedRanges timeline).CountsKept := by
  unfold rebuildLoadedRanges
  split
  · exact h
  · rename_i timelineRange hlookup
    refine ⟨⟨h.reach.manifest, h.reach.sorted⟩, ?_⟩
    intro loaded hl
    cases hl
    refine ⟨timelineRange, hlookup, ?_⟩
    obtain ⟨hstart, hspans, hends, hinterest⟩ := updateComponentsOfInterest_frame
      { startTime := (idx.mergedOn timeline timelineRange).foldl (fun t r => min t r.range.min) MAX
        ranges := (idx.mergedOn timeline timelineRange).map fun r => ⟨r.range.max, none⟩
        rangesFromChunk := MergedRanges.spansOf (idx.mergedOn timeline timelineRange)
        componentsOfInterest := ∅ }
      idx.chunkPrioritizer.componentsOfInterest idx.chunkPrioritizer.componentPathsFromRootId
      idx.isUnloaded
    refine ⟨hstart, ?_, hspans, new_counts _ _ _ _, ?_⟩
    · refine hends.trans ?_
      rw [List.map_map]
      rfl
    · intro chunk hchunk
      simp only [MergedRanges.new, hinterest] at hchunk
      exact hcontiguous timelineRange hlookup chunk hchunk

theorem updateLoadedRanges_countsKept (h : idx.CountsKept)
    (hcontiguous : ∀ timelineRange, idx.timelines.lookup timeline = some timelineRange → ∀ chunk,
      OfInterest idx.chunkPrioritizer.componentsOfInterest idx.chunkPrioritizer.componentPathsFromRootId
        chunk → MergedRanges.Contiguous (idx.mergedOn timeline timelineRange) chunk) :
    (idx.updateLoadedRanges timeline).CountsKept := by
  unfold updateLoadedRanges
  split
  · rename_i before hl₀
    split
    · rename_i htimeline
      refine ⟨⟨h.reach.manifest, h.reach.sorted⟩, ?_⟩
      intro loaded hl
      cases hl
      obtain ⟨timelineRange, hlookup, hcached⟩ := h.loaded before hl₀
      refine ⟨timelineRange, hlookup, ?_⟩
      obtain ⟨hstart, hspans, hends, hinterest⟩ := before.ranges.updateComponentsOfInterest_frame
        idx.chunkPrioritizer.componentsOfInterest idx.chunkPrioritizer.componentPathsFromRootId
        idx.isUnloaded
      refine ⟨hstart.trans hcached.start, hends.trans hcached.ends, hspans.trans hcached.spans,
        updateComponentsOfInterest_counts fun _ => hcached.counts, ?_⟩
      intro chunk hchunk
      simp only [hinterest] at hchunk
      rw [htimeline] at hlookup ⊢
      exact hcontiguous timelineRange hlookup chunk hchunk
    · exact rebuildLoadedRanges_countsKept h hcontiguous
  · exact rebuildLoadedRanges_countsKept h hcontiguous

theorem step_countsKept {op : ManifestOp} (h : idx.CountsKept) (hop : idx.KeepsCounts op)
    (hstep : idx.step op = some idx') : idx'.CountsKept := by
  cases op with
  | append delta concatenates =>
    cases hstep
    exact append_countsKept h concatenates hop
  | prefetch pass =>
    obtain ⟨hrows, hcontiguous⟩ := hop
    obtain ⟨mid, ⟨batches, hreq⟩, hloaded, hupdated⟩ := prefetch_passed hrows hstep
    have hmid : mid.CountsKept := by
      refine h.of_same hreq.manifest hreq.sortedChunks hreq.timelines hreq.paths hloaded ?_
      intro _ _ chunk _ _
      rw [isUnloaded_eq, isUnloaded_eq, hreq.states]
      split
      · -- A chunk that was requested is as little loaded as before.
        rename_i hmem
        obtain ⟨info, hinfo, hc⟩ := mem_flatMap.mp hmem
        obtain ⟨root, hroot, hstate⟩ := hreq.unloaded info hinfo chunk hc
        rw [hroot]
        simp [hstate, LoadState.isFullyLoaded]
      · rfl
    rcases hupdated with rfl | ⟨timeline, hcursor, hinterest, rfl⟩
    · exact hmid
    · refine updateLoadedRanges_countsKept hmid ?_
      intro timelineRange hlookup chunk hchunk
      rw [hinterest, hreq.paths] at hchunk
      rw [mergedOn_congr hreq.sortedChunks]
      exact hcontiguous timeline timelineRange hcursor (hreq.timelines ▸ hlookup) chunk hchunk
  | settle batch result =>
    cases hstep
    exact h.of_same rfl rfl rfl rfl rfl fun _ _ _ _ _ => rfl
  | receive store events =>
    cases hstep
    refine onEvents_countsKept ?_ store events
    exact h.of_same rfl rfl rfl rfl rfl fun _ _ _ _ _ => rfl
  | cancel =>
    cases hstep
    exact cancel_countsKept h hop
  | storeEvents store events =>
    cases hstep
    exact onEvents_countsKept h store events

end Steps

/-! ## Every run -/

theorem default_countsKept : RrdManifestIndex.default.CountsKept where
  reach :=
    { manifest := fun _ h => by cases h
      sorted := fun key infos h => by simp [RrdManifestIndex.default] at h }
  loaded := fun _ h => by cases h

/-- In every state that a run reaches whose steps keep the counts, the counts are those of the merged
ranges. -/
theorem loaded_accounting {ops : List ManifestOp} {idx : RrdManifestIndex}
    (hsteps : StepsMeet KeepsCounts RrdManifestIndex.default ops)
    (hrun : RrdManifestIndex.default.run ops = some idx) : idx.LoadedAccounting :=
  (run_induction (fun _ _ _ h hop hstep => step_countsKept h hop hstep) ops _ _
    default_countsKept hsteps hrun).accounting

/-! ### Two small manifests -/

def ticks (a b : Nat) : AbsoluteTimeRange := ⟨⟨I64.ofLength a⟩, ⟨I64.ofLength b⟩⟩

def entryOf (component : String) (chunk : ChunkId) (range : AbsoluteTimeRange) :
    (EntityPath × Timeline × ComponentIdentifier × ChunkId) × DlrManifestTemporalMapEntry :=
  ((⟨["entity"]⟩, ⟨⟨"frame"⟩, .sequence⟩, ⟨component⟩, chunk), ⟨range, 1⟩)

def overlappingManifest : RrdManifest where
  staticMap := ∅
  temporalMap := Assoc.ofList
    [entryOf "a" 1 (ticks 0 10), entryOf "a" 2 (ticks 5 20), entryOf "b" 1 (ticks 8 12), entryOf "b" 3 (ticks 30 40)]
  rows := [⟨1, 10, 20⟩, ⟨2, 10, 20⟩, ⟨3, 10, 20⟩]

def separatedManifest : RrdManifest where
  staticMap := ∅
  temporalMap := Assoc.ofList
    [entryOf "a" 1 (ticks 0 10), entryOf "a" 2 (ticks 50 60), entryOf "b" 1 (ticks 90 100)]
  rows := [⟨1, 10, 20⟩, ⟨2, 10, 20⟩]

def viewing (ids : List ChunkId) : PrefetchPass where
  store :=
    { ChunkStore.new ⟨0, 0, 0⟩ with
      chunksLineage := Assoc.ofList (ids.map fun id => (id, ⟨.rootFromManifest false, 0, true⟩)) }
  tracker := ⟨[], [], ids, [], []⟩
  maxOnWireBytesPerBatch := 1
  timeCursor := some ⟨"frame"⟩
  queue := []
  fetches := []
  takes := fun _ => true
  abortsOnError := false

instance (ranges : List TimeRange) (chunk : ChunkId) (i : Nat) : Decidable (DependsAt ranges chunk i) :=
  inferInstanceAs (Decidable (∃ r ∈ ranges[i]?, chunk ∈ r.dependsOn))

theorem contiguous_of_bounded {ranges : List TimeRange} (h : ∀ chunk ∈ ranges.flatMap (·.dependsOn.elems),
    ∀ k < ranges.length, ∀ j ≤ k, ∀ i ≤ j, DependsAt ranges chunk i → DependsAt ranges chunk k →
      DependsAt ranges chunk j) (chunk : ChunkId) : MergedRanges.Contiguous ranges chunk := by
  intro i j k hij hjk hi hk
  obtain ⟨r, hr, hmem⟩ := id hk
  exact h chunk (mem_flatMap.mpr ⟨r, mem_of_getElem? hr, hmem⟩) k (DependsAt.lt hk) j hjk i hij hi hk

def loads (chunk : Chunk) : ManifestOp :=
  .storeEvents (viewing [1, 2, 3]).store [.addition chunk chunk .volatile]

def partOf (id : ChunkId) : Chunk :=
  .ofColumns id ⟨["entity"]⟩ 0 [1] [(⟨"frame"⟩, [I64.sat 9])] [(⟨"a"⟩, [some []])]

/-- Two of the three chunks of a view are loaded, which leaves what comes before the third. -/
theorem loaded_accounting_viewing :
    ∃ idx, RrdManifestIndex.default.run
        [.append overlappingManifest true, .prefetch (viewing [1, 2, 3]), loads (partOf 2), loads (partOf 1)] = some idx ∧
      idx.loadedRangesOnTimeline ⟨"frame"⟩ = [ticks 0 30] ∧ idx.LoadedAccounting := by
  refine ⟨_, rfl, by decide +kernel, @loaded_accounting
    [.append overlappingManifest true, .prefetch (viewing [1, 2, 3]), loads (partOf 2), loads (partOf 1)] _ ?_ rfl⟩
  refine .cons rfl ?_ (.cons rfl ⟨?_, ?_⟩ (.cons rfl trivial (.cons rfl trivial trivial)))
  · intro key entry hentry
    have hvalid : ∀ p ∈ toList overlappingManifest.temporalMap,
        MIN ≤ p.2.timeRange.min ∧ p.2.timeRange.min ≤ p.2.timeRange.max := by decide +kernel
    exact hvalid _ (mem_toList.mpr hentry)
  · exact @rowsCurrent_of_concatenates [.append overlappingManifest true] _ ⟨rfl, fun _ _ => trivial⟩ rfl
  · intro timeline timelineRange hcursor hlookup chunk _
    cases hcursor
    have hrange : timelineRange = ticks 0 40 := by
      refine some.inj (hlookup.symm.trans ?_)
      decide +kernel
    rw [hrange]
    exact contiguous_of_bounded (by decide +kernel) chunk

/-- Between the ranges of its two components, chunk 1 is counted although the range depends on chunk 2
only. -/
theorem separated_chunk_is_counted :
    ¬ ∀ (ops : List ManifestOp) (idx : RrdManifestIndex),
      RrdManifestIndex.default.run ops = some idx → idx.LoadedAccounting := by
  intro h
  have haccounting := h [.append separatedManifest true, .prefetch (viewing [1, 2])] _ rfl
  obtain ⟨timelineRange, hlookup, hranges⟩ := haccounting.counts _ rfl
  have hrange : timelineRange = ticks 0 100 := by
    refine some.inj (hlookup.symm.trans ?_)
    decide +kernel
  have hcounts := congrArg (List.map (·.unloadedCount)) hranges
  rw [hrange] at hcounts
  exact absurd hcounts (by decide +kernel)

end RrdManifestIndex

end Dalaran
