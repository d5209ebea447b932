import Dalaran.Store.EventBalance
import Dalaran.Store.StaticOverwrites

/-
  Dropping an entity: what goes and what stays.

  `drop_entity_path` gathers the chunks to drop from the indices of the entity, not
  from the physical chunks. A temporal chunk is always listed at its own slots
  (`Reachable.listsChunks`). A static chunk is found only if it is the one that some
  component of the entity points at. And what is listed under the entity is dropped,
  whatever entity it is of. `dropEntityPath_drops_iff` says that nothing else can go
  wrong.
-/

namespace Dalaran

open List ChunkStore

/-- Physical chunks are listed at their own slots, whatever else is. -/
def Catalog.ListsChunks (v : Catalog) : Prop :=
  ∀ id c s, v.chunks id = some c → c.OwnSlot s → v.listed id s

namespace Catalog

variable {v w : Catalog}

theorem ListsChunks.removes (hv : v.ListsChunks) (h : Removes v w) : w.ListsChunks := by
  intro id c s hc hs
  have hsome : (w.chunks id).isSome := Option.isSome_of_eq_some hc
  exact h.listed_kept id s hsome (hv id c s ((h.isSome_of hsome).symm.trans hc) hs)

theorem ListsChunks.adds {c : Chunk} (hv : v.ListsChunks) (hadd : Adds c v w) : w.ListsChunks := by
  intro id d s hd hs
  rw [hadd.listed]
  rcases hadd.chunks_cases hd with ⟨hid, rfl⟩ | ⟨-, hd⟩
  · exact .inl ⟨hid, hs⟩
  · exact .inr (hv id d s hd hs)

end Catalog

namespace ChunkStore

variable {st : ChunkStore} {e : EntityPath}

def IndexedUnder (st : ChunkStore) (e : EntityPath) (id : ChunkId) : Prop :=
  id ∈ st.staticChunkIds e ∨ id ∈ st.temporalChunkIds e

instance (st : ChunkStore) (e : EntityPath) (id : ChunkId) : Decidable (st.IndexedUnder e id) :=
  inferInstanceAs (Decidable (_ ∨ _))

theorem indexedUnder_of_temporal (hlists : st.catalog.ListsChunks) {id : ChunkId} {c : Chunk}
    (hc : st.physical id = some c) (hstatic : c.isStatic = false) : st.IndexedUnder c.entityPath id := by
  exact .inr (mem_temporalChunkIds_of_listed hstatic fun s => hlists id c s hc)

end ChunkStore

/-! ## Every reachable store lists its chunks -/

theorem Op.run_listsChunks {st : ChunkStore} {op : Op} (h : st.catalog.ListsChunks)
    (hv : st.catalog.Sound) (hop : op.Possible st) : (op.run st).catalog.ListsChunks := by
  refine Op.run_keeps h hv hop Catalog.ListsChunks.removes Catalog.ListsChunks.adds (fun manifest => ?_) fun e => ?_
  · have hannounces := insertDlrManifest_announces st manifest
    intro id c s hc hs
    exact (hannounces.listed id s).mpr (.inr (h id c s (hannounces.chunks ▸ hc) hs))
  · have hdrops := dropEntityPath_drops st e
    intro id c s hc hs
    obtain ⟨hkept, hindexed⟩ := hdrops.physical_of hc
    refine (hdrops.listed id s).mpr ⟨fun heq => hindexed ?_, h id c s hkept hs⟩
    -- a slot of the entity would be one of a chunk that was found
    have hown := indexedUnder_of_temporal h hkept hs.isStatic
    rwa [← hs.entity_eq, heq] at hown

namespace ChunkStore

variable {st : ChunkStore} {e : EntityPath}

theorem Reachable.listsChunks {allowed : ChunkStore → Op → Prop} (h : Reachable allowed st) :
    st.catalog.ListsChunks := by
  induction h with
  | new config =>
    intro id c s hc
    cases hc
  | step hst hop _ ih => exact Op.run_listsChunks ih hst.sound hop

/-! ## The indices of other entities -/

theorem dropEntityPath_indices (st : ChunkStore) (e : EntityPath) :
    (st.dropEntityPath e).1.temporalChunkIdsPerEntityPerComponent =
        retainKeys st.temporalChunkIdsPerEntityPerComponent (fun k => k.1 ≠ e) ∧
      (st.dropEntityPath e).1.temporalChunkIdsPerEntity =
        retainKeys st.temporalChunkIdsPerEntity fun k => k.1 ≠ e := by
  obtain ⟨_, _, _, _, h⟩ := dropEntityPath_eq st e
  rw [h]
  exact ⟨rfl, rfl⟩

/-! ## A complete and local drop -/

/-- Exactly the chunks of an entity go, with their places in the RowId order, the keys of the entity in
every index, and one deletion event each. -/
structure DropsEntity (st : ChunkStore) (e : EntityPath) : Prop where
  chunks : ∀ id c, (st.dropEntityPath e).1.physical id = some c ↔ st.physical id = some c ∧ c.entityPath ≠ e
  rowOrder : ∀ r id, toLex (r, id) ∈ (st.dropEntityPath e).1.physicalChunkIdsPerMinRowId ↔
    toLex (r, id) ∈ st.physicalChunkIdsPerMinRowId ∧
      ¬ ∃ c, st.physical id = some c ∧ c.entityPath = e ∧ c.minRowId = some r
  statics : ∀ key, (st.dropEntityPath e).1.staticChunkIdsPerEntity.lookup key =
    if key.1 = e then none else st.staticChunkIdsPerEntity.lookup key
  components : ∀ key, (st.dropEntityPath e).1.temporalChunkIdsPerEntityPerComponent.lookup key =
    if key.1 = e then none else st.temporalChunkIdsPerEntityPerComponent.lookup key
  timelines : ∀ key, (st.dropEntityPath e).1.temporalChunkIdsPerEntity.lookup key =
    if key.1 = e then none else st.temporalChunkIdsPerEntity.lookup key
  events : ∃ dropped : List Chunk,
    (st.dropEntityPath e).2 = dropped.map (fun c => .deletion ⟨c, .explicitDrop⟩) ∧
      (dropped.map (·.id)).Nodup ∧ ∀ c, c ∈ dropped ↔ st.physical c.id = some c ∧ c.entityPath = e

/-- Every physical static chunk of an entity is one that the indices list under it. -/
def StaticsIndexed (st : ChunkStore) (e : EntityPath) : Prop :=
  ∀ id c, st.physical id = some c → c.isStatic = true → c.entityPath = e → st.IndexedUnder e id

/-- No chunk of another entity is listed under an entity. -/
def OthersNotIndexed (st : ChunkStore) (e : EntityPath) : Prop :=
  ∀ id c, st.physical id = some c → st.IndexedUnder e id → c.entityPath = e

theorem mem_physicalChunks (hv : st.catalog.Sound) {c : Chunk} : c ∈ st.physicalChunks ↔ st.physical c.id = some c := by
  unfold physicalChunks
  rw [Assoc.mem_values]
  constructor
  · intro ⟨id, hid⟩
    have hown : c.id = id := hv.id_eq id c hid
    rw [hown]
    exact hid
  · exact fun h => ⟨c.id, h⟩

theorem physicalChunks_ids_nodup (hv : st.catalog.Sound) : (st.physicalChunks.map (·.id)).Nodup := by
  have hkeys : st.physicalChunks.map (·.id) = st.physicalChunksPerChunkId.keys := by
    unfold physicalChunks Assoc.values AList.keys List.keys
    rw [map_map]
    refine map_congr_left fun entry hentry => ?_
    exact hv.id_eq entry.1 entry.2 (AList.mem_lookup_iff.mpr hentry)
  rw [hkeys]
  exact AList.keys_nodup _

theorem dropEntityPath_events (hv : st.catalog.Sound) (hchunks : ∀ id c,
    (st.dropEntityPath e).1.physical id = some c ↔ st.physical id = some c ∧ c.entityPath ≠ e) :
    ∃ dropped : List Chunk,
      (st.dropEntityPath e).2 = dropped.map (fun c => .deletion ⟨c, .explicitDrop⟩) ∧
        (dropped.map (·.id)).Nodup ∧ ∀ c, c ∈ dropped ↔ st.physical c.id = some c ∧ c.entityPath = e := by
  obtain ⟨dropped, hevicts, hdiffs⟩ := dropEntityPath_evicts st e
  have hnodup := ((hevicts.map (·.id)).nodup_iff).mp (physicalChunks_ids_nodup hv)
  rw [map_append] at hnodup
  obtain ⟨hdropped, -, hdisjoint⟩ := nodup_append'.mp hnodup
  refine ⟨dropped, hdiffs, hdropped, fun c => ?_⟩
  have hmem : c ∈ st.physicalChunks ↔ c ∈ dropped ∨ c ∈ (st.dropEntityPath e).1.physicalChunks :=
    hevicts.mem_iff.trans mem_append
  rw [mem_physicalChunks hv] at hmem
  constructor
  · intro hc
    have hphys := hmem.mpr (.inl hc)
    refine ⟨hphys, ?_⟩
    by_contra hne
    have hkept : c ∈ (st.dropEntityPath e).1.physicalChunks :=
      Assoc.mem_values.mpr ⟨c.id, (hchunks c.id c).mpr ⟨hphys, hne⟩⟩
    exact hdisjoint (mem_map_of_mem hc) (mem_map_of_mem hkept)
  · intro ⟨hphys, heq⟩
    refine (hmem.mp hphys).resolve_right fun hkept => ?_
    obtain ⟨id, hid⟩ := Assoc.mem_values.mp hkept
    exact ((hchunks id c).mp hid).2 heq

def olderStaticStore : ChunkStore :=
  (Op.insertChunk (.countingFrom 100) ⟨staticChunk 2 [5], staticChunk_sane⟩).run
    ((Op.insertChunk (.countingFrom 100) ⟨staticChunk 1 [7], rfl⟩).run (.new ⟨0, 0, 0⟩))

/-- Nothing points at the second one, so it outlives the drop of its entity, and no event tells of it. -/
theorem olderStaticStore_not_dropsEntity :
    Reachable (fun _ _ => True) olderStaticStore ∧
      (olderStaticStore.dropEntityPath ⟨["robot"]⟩).1.physical 2 = some (staticChunk 2 [5]) ∧
      (olderStaticStore.dropEntityPath ⟨["robot"]⟩).2 = [.deletion ⟨staticChunk 1 [7], .explicitDrop⟩] ∧
      ¬ olderStaticStore.DropsEntity ⟨["robot"]⟩ := by
  have hstays : (olderStaticStore.dropEntityPath ⟨["robot"]⟩).1.physical 2 = some (staticChunk 2 [5]) := rfl
  refine ⟨.step (.step (.new _) fresh_countingFrom trivial)
    fresh_countingFrom trivial, hstays, rfl, fun h => ?_⟩
  exact ((h.chunks 2 _).mp hstays).2 rfl

/-- In every reachable store a drop is complete and local exactly if the indices list every static chunk
of the entity under it, and no chunk of another one. -/
theorem dropEntityPath_drops_iff (hst : Reachable (fun _ _ => True) st) (e : EntityPath) :
    st.DropsEntity e ↔ st.StaticsIndexed e ∧ st.OthersNotIndexed e := by
  have hdrops := dropEntityPath_drops st e
  have hchunk : ∀ id, (st.dropEntityPath e).1.physical id = if st.IndexedUnder e id then none else st.physical id :=
    fun id => hdrops.chunks id
  constructor
  · intro h
    constructor
    · intro id c hc _ heq
      by_contra hnot
      have hkept := hchunk id
      rw [if_neg hnot, hc] at hkept
      exact ((h.chunks id c).mp hkept).2 heq
    · intro id c hc hindexed
      by_contra hne
      have hgone := hchunk id
      rw [if_pos hindexed, (h.chunks id c).mpr ⟨hc, hne⟩] at hgone
      cases hgone
  · intro ⟨hstatics, hothers⟩
    -- the physical chunks that are indexed under the entity are its chunks
    have hindexed : ∀ id c, st.physical id = some c → (st.IndexedUnder e id ↔ c.entityPath = e) := by
      intro id c hc
      refine ⟨hothers id c hc, fun heq => ?_⟩
      cases hstatic : c.isStatic with
      | true => exact hstatics id c hc hstatic heq
      | false => exact heq ▸ indexedUnder_of_temporal hst.listsChunks hc hstatic
    have hchunks : ∀ id c, (st.dropEntityPath e).1.physical id = some c ↔
        st.physical id = some c ∧ c.entityPath ≠ e := by
      intro id c
      rw [hchunk]
      split
      · next hin =>
        constructor
        · intro hnone
          cases hnone
        · intro ⟨hc, hne⟩
          exact absurd ((hindexed id c hc).mp hin) hne
      · next hout =>
        exact ⟨fun hc => ⟨hc, fun heq => hout ((hindexed id c hc).mpr heq)⟩, fun h => h.1⟩
    refine ⟨hchunks, fun r id => ?_, fun key => ?_, fun key => ?_, fun key => ?_,
      dropEntityPath_events hst.sound hchunks⟩
    · refine (hdrops.row r id).trans (and_congr_right fun _ => not_congr ⟨?_, ?_⟩)
      · intro ⟨hin, c, hc, hr⟩
        exact ⟨c, hc, (hindexed id c hc).mp hin, hr⟩
      · intro ⟨c, hc, heq, hr⟩
        exact ⟨(hindexed id c hc).mpr heq, c, hc, hr⟩
    · rw [(dropEntityPath_maps st e).2, lookup_retainKeys]
      by_cases hkey : key.1 = e
      · simp [hkey]
      · simp [hkey]
    · rw [(dropEntityPath_indices st e).1, lookup_retainKeys]
      by_cases hkey : key.1 = e
      · simp [hkey]
      · simp [hkey]
    · rw [(dropEntityPath_indices st e).2, lookup_retainKeys]
      by_cases hkey : key.1 = e
      · simp [hkey]
      · simp [hkey]

def coloredStore : ChunkStore :=
  (Op.insertChunk (.countingFrom 100) ⟨staticChunk 9 [9, 10], rfl⟩).run scatteredStore

/-- The entity's temporal chunks and its static one are listed under it, and those of the other are not. -/
theorem dropEntityPath_drops_iff_colored : coloredStore.DropsEntity ⟨["robot"]⟩ := by
  have hlisted : ∀ p ∈ Assoc.toList coloredStore.physicalChunksPerChunkId,
      coloredStore.IndexedUnder ⟨["robot"]⟩ p.1 ↔ p.2.entityPath = ⟨["robot"]⟩ := by decide
  have hreach : Reachable (fun _ _ => True) coloredStore :=
    .step scatteredStore_reachable fresh_countingFrom trivial
  refine (dropEntityPath_drops_iff hreach ⟨["robot"]⟩).mpr ⟨fun id c hc _ heq => ?_, fun id c hc => ?_⟩
  · exact (hlisted (id, c) (Assoc.mem_toList.mpr hc)).mpr heq
  · exact (hlisted (id, c) (Assoc.mem_toList.mpr hc)).mp

end ChunkStore

end Dalaran
