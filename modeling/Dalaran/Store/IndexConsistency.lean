import Dalaran.Store.Run

/-
  The indices of a store against its physical chunks.

  A temporal chunk should be listed at the ends of its components' ranges and of
  its timelines' ranges, and nowhere else; the RowId order should hold each
  physical chunk under its smallest row id. Three operations can break this:
    - a manifest lists an id under the range of each component in the index
      without components too, where the chunk itself is listed under the range
      of the timeline. Neither the clean-up of the entries of a manifest nor a
      later removal of the chunk finds these listings again;
    - an insertion that stores the chunk under its own id keeps listings of the
      id that are not the chunk's;
    - a removal that is given another chunk of the same id takes the smallest
      row id of that chunk out of the RowId order, not the one listed there.
  `reachable_indicesConsistent` says that these are all.
-/

namespace Dalaran

open ChunkStore

structure ChunkStore.IndicesConsistent (st : ChunkStore) : Prop where
  listed : ∀ id c, st.physical id = some c → c.isStatic = false → ∀ s, st.ListedAt id s ↔ c.OwnSlot s
  rowOrder : ∀ r id, toLex (r, id) ∈ st.physicalChunkIdsPerMinRowId ↔
    ∃ c, st.physical id = some c ∧ r ∈ c.rowIds ∧ ∀ r' ∈ c.rowIds, r ≤ r'

/-- An operation agrees with the indices of the store it runs on: a manifest lists the physical
chunks it names where they are listed, a chunk stored under its own id finds no listing of it but
its own, and a removal is given chunks with the smallest row ids of the physical ones. -/
def Op.AgreesWithIndices (st : ChunkStore) : Op → Prop
  | insertDlrManifest manifest => ∀ id c, st.physical id = some c → c.isStatic = false →
    ∀ s, manifest.ListsAt id s → c.OwnSlot s
  | insertChunk env c => st.Accepts c.toChunk → c.isStatic = false → st.keepsId env c.toChunk = true →
    ∀ s, st.ListedAt c.id s → c.OwnSlot s
  | removeChunksShallow chunks _ _ => ∀ c ∈ chunks, ∀ d, st.physical c.id = some d → d.minRowId = c.minRowId
  | removeChunksDeep chunks _ => ∀ c ∈ chunks, ∀ d, st.physical c.id = some d → d.minRowId = c.minRowId
  | _ => True

namespace ChunkStore

variable {st : ChunkStore}

/-- In order, with the listings of the temporal chunks exact. -/
abbrev InOrder (st : ChunkStore) : Prop := st.catalog.Consistent fun c => c.isStatic = false

theorem insertChunk_inOrder {env : Env} {c : ValidChunk} (hv : st.InOrder)
    (hfresh : Fresh env st c.toChunk) (hop : (Op.insertChunk env c).AgreesWithIndices st) :
    (insertChunk env st c.toChunk).1.InOrder := by
  refine insertChunk_elim hv fun hacc => ?_
  obtain ⟨cs, v, h⟩ := insertChunk_refines hv.sound c.wf hfresh hacc
  obtain ⟨hc, habsent, -⟩ := sound_of_earlyReturn c.wf hacc.2
  obtain ⟨hsound, hnodup⟩ := h.stored.sound hc
  have hfits := h.stored.fits (P := fun c => c.isStatic = false) hfresh h.removes fun hkeeps =>
    ⟨h.removes.absent habsent, fun hstatic s hs => hop hacc hstatic hkeeps s (h.removes.listed_of _ _ hs)⟩
  exact (hv.removes h.removes h.unranks).addsAll h.adds (fun p hp => ⟨hsound p hp, hfits p hp⟩) hnodup

theorem insertDlrManifest_inOrder {manifest : DlrManifest} (hv : st.InOrder)
    (hop : (Op.insertDlrManifest manifest).AgreesWithIndices st) :
    (st.insertDlrManifest manifest).1.InOrder := by
  have h := insertDlrManifest_announces st manifest
  have hback : ∀ {id c}, (st.insertDlrManifest manifest).1.catalog.chunks id = some c →
      st.catalog.chunks id = some c := fun hc => h.chunks ▸ hc
  refine ⟨⟨fun id c hc => hv.sound.id_eq id c (hback hc), fun id c hc => hv.sound.chunk id c (hback hc)⟩,
    fun id c hc hstatic s => ?_, fun r id => ?_, fun id c tl co r hc hr => ?_⟩
  · rw [h.listed]
    have hold := hv.exact id c (hback hc) hstatic s
    exact ⟨fun hs => hs.elim (hop id c (hback hc) hstatic s) hold.mp, fun hs => .inr (hold.mpr hs)⟩
  · rw [h.row, h.chunks]
    exact hv.ranked r id
  · exact (hv.covered id c tl co r (hback hc) hr).trans (h.longest_le _)

theorem dropEntityPath_inOrder (hv : st.InOrder) (e : EntityPath) : (st.dropEntityPath e).1.InOrder := by
  have h := dropEntityPath_drops st e
  have hback : ∀ {id c}, (st.dropEntityPath e).1.catalog.chunks id = some c →
      st.physical id = some c ∧ ¬ (id ∈ st.staticChunkIds e ∨ id ∈ st.temporalChunkIds e) := h.physical_of
  -- the temporal chunks that are left belong to other entities
  have hother : ∀ {id c}, (st.dropEntityPath e).1.catalog.chunks id = some c → c.isStatic = false →
      c.entityPath ≠ e := by
    rintro id c hc hstatic rfl
    exact (hback hc).2 (.inr (mem_temporalChunkIds_of_listed hstatic fun s =>
      (hv.exact id c (hback hc).1 hstatic s).mpr))
  refine ⟨⟨fun id c hc => hv.sound.id_eq id c (hback hc).1, fun id c hc => hv.sound.chunk id c (hback hc).1⟩,
    fun id c hc hstatic s => ?_, fun r id => ?_, fun id c tl co r hc hr => ?_⟩
  · rw [h.listed, ← hv.exact id c (hback hc).1 hstatic s]
    refine ⟨fun hs => hs.2, fun hs => ⟨?_, hs⟩⟩
    rw [((hv.exact id c (hback hc).1 hstatic s).mp hs).entity_eq]
    exact hother hc hstatic
  · have hranked : st.catalog.rowOrder r id ↔ ∃ c, st.physical id = some c ∧ c.minRowId = some r :=
      hv.ranked r id
    rw [h.row, hranked, h.chunks]
    by_cases hmem : id ∈ st.staticChunkIds e ∨ id ∈ st.temporalChunkIds e
    · simp [hmem]
    · simp [hmem]
  · have hstatic : c.isStatic = false := by
      rw [Chunk.isStatic_eq_false_iff]
      obtain ⟨tc, htc, -⟩ := Option.bind_eq_some_iff.mp hr
      exact ⟨tl, by rw [htc]; rfl⟩
    rw [h.longest _ (hother hc hstatic)]
    exact hv.covered id c tl co r (hback hc).1 hr

end ChunkStore

theorem Op.run_inOrder {st : ChunkStore} {op : Op} (hv : st.InOrder) (hpossible : op.Possible st)
    (hop : op.AgreesWithIndices st) : (op.run st).InOrder := by
  cases op with
  | insertDlrManifest manifest => exact insertDlrManifest_inOrder hv hop
  | insertChunk env c => exact insertChunk_inOrder hv hpossible hop
  | gc options clock =>
    obtain ⟨hremoves, hunranks⟩ := gc_removes hv.sound options clock
    exact hv.removes hremoves hunranks
  | removeChunksShallow chunks budget reason =>
    have h := removeChunksShallow_removes hv.sound (chunks.map (·.toChunk)) budget reason
    refine hv.removes h.removes (h.unranks fun c hc d hd => ?_)
    obtain ⟨c', hc', rfl⟩ := List.mem_map.mp hc
    exact hop c' hc' d hd
  | removeChunksDeep chunks reason =>
    have h := removeChunksDeep_removes hv.sound (chunks.map (·.toChunk)) reason
    refine hv.removes h.removes (h.unranks fun c hc d hd => ?_)
    obtain ⟨c', hc', rfl⟩ := List.mem_map.mp hc
    exact hop c' hc' d hd
  | dropEntityPath e => exact dropEntityPath_inOrder hv e

namespace ChunkStore

variable {st : ChunkStore}

theorem new_consistent (P : Chunk → Prop) (config : ChunkSplitConfig) :
    (ChunkStore.new config).catalog.Consistent P := by
  refine ⟨⟨fun id c hc => ?_, fun id c hc => ?_⟩, fun id c hc => ?_, fun r id => ?_, fun id c tl co r hc => ?_⟩
  · simp [new_catalog_chunks] at hc
  · simp [new_catalog_chunks] at hc
  · simp [new_catalog_chunks] at hc
  · have hrow : ¬ (ChunkStore.new config).catalog.rowOrder r id := OrdSet.not_mem_empty _
    simp [new_catalog_chunks, hrow]
  · simp [new_catalog_chunks] at hc

theorem minRowId_eq_some_iff {c : Chunk} (hc : c.Sound) {r : RowId} :
    c.minRowId = some r ↔ r ∈ c.rowIds ∧ ∀ r' ∈ c.rowIds, r ≤ r' := by
  obtain ⟨lo, hi, hrange, hlo, -, hall⟩ := Chunk.rowIdRange_spec hc.wf hc.nonempty
  have hmin : c.minRowId = some lo := by rw [Chunk.minRowId, hrange]; rfl
  rw [hmin, Option.some.injEq]
  constructor
  · rintro rfl
    exact ⟨hlo, fun r' hr' => (hall r' hr').1⟩
  · rintro ⟨hr, hle⟩
    exact le_antisymm (hall r hr).1 (hle lo hlo)

/-- In every run whose operations agree with the indices, the indices agree with the chunks. -/
theorem reachable_indicesConsistent (h : Reachable (fun st op => op.AgreesWithIndices st) st) :
    st.IndicesConsistent := by
  have hv : st.InOrder := by
    induction h with
    | new config => exact new_consistent _ config
    | step _ hop hallowed ih => exact Op.run_inOrder ih hop hallowed
  refine ⟨fun id c hc hstatic s => hv.exact id c hc hstatic s, fun r id => ?_⟩
  have hranked : toLex (r, id) ∈ st.physicalChunkIdsPerMinRowId ↔
      ∃ c, st.physical id = some c ∧ c.minRowId = some r := hv.ranked r id
  rw [hranked]
  refine exists_congr fun c => and_congr_right fun hc => ?_
  exact minRowId_eq_some_iff (hv.sound.chunk id c hc)

/-! ## A manifest that does not agree with the indices -/

def interleavedChunk : ValidChunk where
  toChunk := .ofColumns 1 ⟨["robot"]⟩ 0 [1, 2, 3, 4] [(⟨"frame"⟩, [0, 3, 5, 9].map I64.sat)]
    [(⟨"position"⟩, [some [], none, some [], none]), (⟨"color"⟩, [none, some [], none, some []])]
  sane := rfl

def interleavedManifest : DlrManifest where
  staticMap := ∅
  temporalMap := Assoc.ofList
    [((⟨["robot"]⟩, ⟨⟨"frame"⟩, .sequence⟩, ⟨"position"⟩, 1), ⟨⟨⟨.sat 0⟩, ⟨.sat 5⟩⟩, 2⟩),
     ((⟨["robot"]⟩, ⟨⟨"frame"⟩, .sequence⟩, ⟨"color"⟩, 1), ⟨⟨⟨.sat 3⟩, ⟨.sat 9⟩⟩, 2⟩)]

def announcedStore : ChunkStore := (Op.insertDlrManifest interleavedManifest).run (.new ⟨0, 0, 0⟩)

def loadedStore : ChunkStore := (Op.insertChunk (.countingFrom 100) interleavedChunk).run announcedStore

theorem loadedStore_reachable : Reachable (fun _ _ => True) loadedStore :=
  .step (.step (.new _) trivial trivial) fresh_countingFrom trivial

/-- The same chunk without a manifest is listed as it should be. -/
theorem insertedStore_indicesConsistent :
    ((Op.insertChunk (.countingFrom 100) interleavedChunk).run (.new ⟨0, 0, 0⟩)).IndicesConsistent :=
  reachable_indicesConsistent (.step (.new _) fresh_countingFrom
    fun _ _ _ s hs => absurd hs (not_listedAt_new _ _ s))

/-- The start of the second component stays listed in the index without components. -/
theorem loadedStore_not_indicesConsistent :
    Reachable (fun _ _ => True) loadedStore ∧ ¬ loadedStore.IndicesConsistent := by
  refine ⟨loadedStore_reachable, fun h => ?_⟩
  have hlisted := h.listed 1 interleavedChunk.toChunk (by rfl) (by decide)
    (.timeline ⟨["robot"]⟩ ⟨"frame"⟩ .start ⟨.sat 3⟩)
  revert hlisted
  decide

end ChunkStore

end Dalaran
