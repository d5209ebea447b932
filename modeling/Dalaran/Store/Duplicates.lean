import Dalaran.Store.IndexConsistency
import Mathlib.Data.List.Dedup

/-
  Queries without deduplication (`include_static = false` in `query.rs`).

  The queries over the index without components skip deduplication, since an id is
  meant to have one start time per entity and timeline (`SingleStart`). An id loses
  it when a manifest gives two of its components different starts, or when a chunk
  is stored under its own id next to a listing with another start.
  `reachable_queries_duplicateFree` says that these are the only ways.
-/

namespace Dalaran

open List ChunkIdSetPerTime

def QueryResults.ids (results : QueryResults) : List ChunkId :=
  results.chunks.map (·.id) ++ results.missingVirtual

/-! ## One start per id -/

/-- An id has at most one start on a timeline of an entity. -/
def Catalog.SingleStart (v : Catalog) : Prop :=
  ∀ id e timeline t t', v.listed id (.timeline e timeline .start t) →
    v.listed id (.timeline e timeline .start t') → t = t'

/-- A chunk can be listed: its id has no other start on the chunk's timelines. -/
def Catalog.Joins (c : Chunk) (v : Catalog) : Prop :=
  ∀ e timeline t t', c.OwnSlot (.timeline e timeline .start t) →
    v.listed c.id (.timeline e timeline .start t') → t' = t

namespace Catalog

variable {v w : Catalog} {c : Chunk}

theorem SingleStart.removes (hv : v.SingleStart) (h : Removes v w) : w.SingleStart :=
  fun id e tl t t' ht ht' => hv id e tl t t' (h.listed_of _ _ ht) (h.listed_of _ _ ht')

theorem SingleStart.adds (hv : v.SingleStart) (h : Adds c v w) (hc : v.Joins c) : w.SingleStart := by
  intro id e tl t t' ht ht'
  rcases (h.listed _ _).mp ht with ⟨rfl, hown⟩ | hold
  · rcases (h.listed _ _).mp ht' with ⟨-, hown'⟩ | hold'
    · obtain ⟨-, tc, htc, rfl⟩ := hown
      obtain ⟨-, tc', htc', rfl⟩ := hown'
      rw [Option.mem_unique htc htc']
    · exact (hc e tl t t' hown hold').symm
  · rcases (h.listed _ _).mp ht' with ⟨rfl, hown'⟩ | hold'
    · exact hc e tl t' t hown' hold
    · exact hv id e tl t t' hold hold'

theorem Joins.adds {p : Chunk} (hp : v.Joins p) (h : Adds c v w) (hne : p.id ≠ c.id) : w.Joins p :=
  fun e tl t t' hown hl => hp e tl t t' hown (((h.listed _ _).mp hl).resolve_left fun h => hne h.1)

theorem SingleStart.addsAll : ∀ {cs : List Chunk} {v w : Catalog}, v.SingleStart → AddsAll cs v w →
    (∀ c ∈ cs, v.Joins c) → (cs.map (·.id)).Nodup → w.SingleStart
  | [], _, _, hv, h, _, _ => h ▸ hv
  | c :: cs, _, _, hv, ⟨_, hadd, hrest⟩, hcs, hnd => by
    rw [map_cons, nodup_cons] at hnd
    refine (hv.adds hadd (hcs c mem_cons_self)).addsAll hrest (fun d hd => ?_) hnd.2
    exact (hcs d (mem_cons_of_mem _ hd)).adds hadd fun heq => hnd.1 (heq ▸ mem_map_of_mem hd)

end Catalog

/-! ## Queries over single starts -/

namespace ChunkIdSetPerTime

def SingleStart (s : ChunkIdSetPerTime) : Prop :=
  ∀ id t t', toLex (t, id) ∈ s.perStartTime → toLex (t', id) ∈ s.perStartTime → t = t'

variable {s : ChunkIdSetPerTime}

theorem mem_idsAt {s : OrdSet TimeAndId} {u : TimeInt} {id : ChunkId} :
    id ∈ ChunkStore.idsAt s u ↔ toLex (u, id) ∈ s := by
  unfold ChunkStore.idsAt
  rw [mem_map]
  constructor
  · rintro ⟨p, hp, rfl⟩
    obtain ⟨hp, hu⟩ := mem_filter.mp hp
    rw [← of_decide_eq_true hu]
    exact hp
  · exact fun h => ⟨toLex (u, id), mem_filter.mpr ⟨h, by simp⟩, rfl⟩

theorem idsAt_nodup (u : TimeInt) : (ChunkStore.idsAt s.perStartTime u).Nodup := by
  refine Nodup.map_on (fun p hp q hq hpq => ?_) (s.perStartTime.nodup.filter _)
  have hpu := of_decide_eq_true (mem_filter.mp hp).2
  have hqu := of_decide_eq_true (mem_filter.mp hq).2
  exact ofLex.injective (Prod.ext (hpu.trans hqu.symm) hpq)

theorem latestAt_nodup (h : s.SingleStart) {t : TimeInt} {ids : List ChunkId}
    (hids : s.latestAt t = some ids) : ids.Nodup := by
  obtain ⟨upper, -, rfl⟩ := Option.map_eq_some_iff.mp hids
  refine nodup_flatMap.mpr ⟨fun u _ => idsAt_nodup u, ?_⟩
  have hstarts : ((s.startTimes.dedup.filter fun u => decide (u ≤ t)).reverse.takeWhile fun u =>
      decide (upper.asI64.saturatingSub (I64.ofLength s.maxIntervalLength) ≤ u.asI64)).Nodup :=
    (nodup_reverse.mpr ((nodup_dedup _).filter _)).sublist (takeWhile_sublist _)
  refine hstarts.imp fun hne id h1 h2 => hne ?_
  exact h id _ _ (mem_idsAt.mp h1) (mem_idsAt.mp h2)

theorem range_nodup (h : s.SingleStart) (query : RangeQuery) : (s.range query).Nodup := by
  refine Nodup.map_on (fun p hp q hq hpq => ?_) (s.perStartTime.nodup.filter _)
  have hp' : toLex ((ofLex p).1, (ofLex p).2) ∈ s.perStartTime := (mem_filter.mp hp).1
  have hq' : toLex ((ofLex q).1, (ofLex p).2) ∈ s.perStartTime := hpq ▸ (mem_filter.mp hq).1
  exact ofLex.injective (Prod.ext (h _ _ _ hp' hq') hpq)

end ChunkIdSetPerTime

namespace ChunkStore

variable {st : ChunkStore}

theorem fromChunkIds_nodup (hv : st.catalog.Sound) {mode : ChunkTrackingMode} {ids : List ChunkId}
    (hids : ids.Nodup) {results : QueryResults} (h : QueryResults.fromChunkIds st mode ids = some results) :
    results.ids.Nodup := by
  have hmap : (ids.filterMap st.physical).map (·.id) = ids.filter fun id => (st.physical id).isSome := by
    clear hids h
    induction ids with
    | nil => rfl
    | cons id ids ih =>
      cases hid : st.physical id with
      | none => simp [hid, ih]
      | some c => simp [hid, ih, hv.id_eq id c hid]
  unfold QueryResults.fromChunkIds at h
  dsimp only at h
  split at h
  · simp at h
  · cases h
    unfold QueryResults.ids
    rw [hmap]
    split
    · refine nodup_append.mpr ⟨hids.filter _, hids.filter _, fun a ha b hb hab => ?_⟩
      have h1 := (mem_filter.mp ha).2
      have h2 := (mem_filter.mp hb).2
      rw [← hab] at h2
      simp [IsPhysical, h1] at h2
    · rw [append_nil]
      exact hids.filter _

theorem singleStart_lookup (hv : st.catalog.SingleStart) {e : EntityPath} {timeline : TimelineName}
    {s : ChunkIdSetPerTime} (hs : st.temporalChunkIdsPerEntity.lookup (e, timeline) = some s) :
    s.SingleStart :=
  fun id t t' ht ht' => hv id e timeline t t' ⟨s, hs, ht⟩ ⟨s, hs, ht'⟩

/-- What the two queries over all components return, without static data, names no id twice. -/
structure QueriesDuplicateFree (st : ChunkStore) : Prop where
  latestAt : ∀ mode query e results,
    st.latestAtRelevantChunksForAllComponents mode query e false = some results → results.ids.Nodup
  range : ∀ mode query e results,
    st.rangeRelevantChunksForAllComponents mode query e false = some results → results.ids.Nodup

theorem queriesDuplicateFree_of_singleStart (hsound : st.catalog.Sound)
    (hv : st.catalog.SingleStart) : st.QueriesDuplicateFree := by
  refine ⟨fun mode query e results h => fromChunkIds_nodup hsound ?_ h, fun mode query e results h => ?_⟩
  · unfold latestAtChunkIdsForAllComponents
    cases hids : query.timeline.bind fun timeline =>
        (st.temporalChunkIdsPerEntity.lookup (e, timeline)).bind fun s => s.latestAt query.at_ with
    | none => exact nodup_nil
    | some ids =>
      obtain ⟨timeline, -, hbind⟩ := Option.bind_eq_some_iff.mp hids
      obtain ⟨s, hs, hlatest⟩ := Option.bind_eq_some_iff.mp hbind
      exact latestAt_nodup (singleStart_lookup hv hs) hlatest
  · obtain ⟨all, hall, rfl⟩ := Option.map_eq_some_iff.mp h
    have hids : (st.rangeChunkIdsForAllComponents query e false).Nodup := by
      unfold rangeChunkIdsForAllComponents
      cases hs : st.temporalChunkIdsPerEntity.lookup (e, query.timeline) with
      | none => exact nodup_nil
      | some s => exact range_nodup (singleStart_lookup hv hs) query
    have hnodup := fromChunkIds_nodup hsound hids hall
    refine hnodup.sublist ?_
    exact Sublist.append (Sublist.map _ filter_sublist) (Sublist.refl _)

end ChunkStore

/-! ## Runs -/

/-- An operation keeps one start per id: a manifest gives an id one start per entity and timeline, the
one it has if it has one, and a chunk stored under its own id has no other start there. -/
def Op.KeepsStarts (st : ChunkStore) : Op → Prop
  | insertDlrManifest manifest => ∀ id e timeline t t', manifest.ListsAt id (.timeline e timeline .start t) →
    manifest.ListsAt id (.timeline e timeline .start t') ∨ st.ListedAt id (.timeline e timeline .start t') → t' = t
  | insertChunk env c => st.Accepts c.toChunk → st.keepsId env c.toChunk = true →
    ∀ e timeline t t', c.OwnSlot (.timeline e timeline .start t) →
      st.ListedAt c.id (.timeline e timeline .start t') → t' = t
  | gc .. => True
  | _ => False

namespace ChunkStore

variable {st : ChunkStore}

theorem insertChunk_singleStart {env : Env} {c : ValidChunk} (hsound : st.catalog.Sound)
    (hv : st.catalog.SingleStart) (hfresh : Fresh env st c.toChunk)
    (hop : (Op.insertChunk env c).KeepsStarts st) :
    (insertChunk env st c.toChunk).1.catalog.SingleStart := by
  refine insertChunk_elim hv fun hacc => ?_
  obtain ⟨cs, v, h⟩ := insertChunk_refines hsound c.wf hfresh hacc
  have hnodup := (h.stored.sound (sound_of_earlyReturn c.wf hacc.2).1).2
  refine (hv.removes h.removes).addsAll h.adds (fun p hp => ?_) hnodup
  have hnew : ∀ {p : Chunk} {j : Nat}, p.id = env.newId j → v.Joins p := fun hid e tl t t' _ hl =>
    absurd (Mentions.listed (h.removes.listed_of _ _ hl)) (hid ▸ (hfresh _).1)
  cases h.stored with
  | pieces _ _ hsplit =>
    obtain ⟨j, -, -, hid⟩ := hsplit.ids.mem p hp
    exact hnew hid
  | whole hkeeps =>
    rw [mem_singleton.mp hp]
    exact fun e tl t t' hown hl => hop hacc hkeeps e tl t t' hown (h.removes.listed_of _ _ hl)
  | merged _ _ _ _ hid _ _ =>
    obtain ⟨j, hj⟩ := hid
    rw [mem_singleton.mp hp]
    exact hnew hj

theorem insertDlrManifest_singleStart {manifest : DlrManifest} (hv : st.catalog.SingleStart)
    (hop : (Op.insertDlrManifest manifest).KeepsStarts st) :
    (st.insertDlrManifest manifest).1.catalog.SingleStart := by
  have h := insertDlrManifest_announces st manifest
  intro id e tl t t' ht ht'
  rcases (h.listed _ _).mp ht with hm | hold
  · exact (hop id e tl t t' hm ((h.listed _ _).mp ht')).symm
  · rcases (h.listed _ _).mp ht' with hm' | hold'
    · exact hop id e tl t' t hm' (.inr hold)
    · exact hv id e tl t t' hold hold'

/-- In every run of manifests, insertions and collections that keeps one start per id, the queries
over all components return no id twice. -/
theorem reachable_queries_duplicateFree (h : Reachable (fun st op => op.KeepsStarts st) st) :
    st.QueriesDuplicateFree := by
  refine queriesDuplicateFree_of_singleStart h.sound ?_
  induction h with
  | new config => exact fun id e tl t t' ht => (not_listedAt_new config id (.timeline e tl .start t) ht).elim
  | @step st op hst hop hkeeps ih =>
    cases op with
    | insertDlrManifest manifest => exact insertDlrManifest_singleStart ih hkeeps
    | insertChunk env c => exact insertChunk_singleStart hst.sound ih hop hkeeps
    | gc options clock => exact ih.removes (gc_removes hst.sound options clock).1
    | removeChunksShallow => exact hkeeps.elim
    | removeChunksDeep => exact hkeeps.elim
    | dropEntityPath => exact hkeeps.elim

/-- A chunk inserted without a manifest is found once. -/
theorem insertedStore_duplicateFree :
    ((Op.insertChunk (.countingFrom 100) interleavedChunk).run (.new ⟨0, 0, 0⟩)).QueriesDuplicateFree :=
  reachable_queries_duplicateFree (.step (.new _) fresh_countingFrom
    fun _ _ _ _ _ _ _ hl => absurd hl (not_listedAt_new _ _ _))

/-- Two components with different starts: a manifest makes the queries return the id twice. -/
theorem announcedStore_not_duplicateFree :
    Reachable (fun _ op => op.isIngestOrGc = true) announcedStore ∧ ¬ announcedStore.QueriesDuplicateFree := by
  refine ⟨.step (.new _) trivial rfl, fun h => ?_⟩
  have hnodup := h.latestAt .report ⟨some ⟨"frame"⟩, ⟨.sat 9⟩⟩ ⟨["robot"]⟩ ⟨[], [1, 1]⟩ (by rfl)
  revert hnodup
  decide

end ChunkStore

end Dalaran
