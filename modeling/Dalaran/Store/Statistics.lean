import Dalaran.Store.Counters
import Dalaran.Store.IndexConsistency

/-
  The statistics of a store over whole runs (`stats.rs`, `writes.rs`, `gc.rs`).

  Every operation adds a chunk to the counter of its kind when it stores it and
  subtracts it when it removes it, so the counters are the sums over the physical
  chunks (`StatsExact`), and no subtraction (`Op.debits`, `Op.run_spends`) underflows.

  Two things are not checked. `remove_chunks_shallow` and `remove_chunks_deep`
  subtract from the temporal counter whatever they remove; and an id that once was a
  temporal chunk's and then is a static one's is taken for a temporal one
  (`removedStatic_not_statsExact`). A run that respects both keeps the counters
  exact (`reachable_statsExact`).
-/

namespace Dalaran

open List Assoc Chunk

namespace ChunkStore

open ChunkStoreChunkStats

variable {st st' : ChunkStore} {c : Chunk} {isStaticId : ChunkId → Bool} {extra : List Chunk}

/-! ## Clean-up -/

theorem withoutManifestEntries_booked (h : Booked isStaticId extra st) (habsent : st.physical c.id = none) :
    Booked isStaticId extra (st.withoutManifestEntries c) := by
  unfold withoutManifestEntries
  split
  · rw [removeChunksDeep_of_absent habsent]
    exact removeChunkFromVirtualIndices_booked (removeMinRowId_booked h c c.id) c
  · exact h

theorem withoutDangling_booked (h : Booked isStaticId extra st) (id : ChunkId) :
    Booked isStaticId extra (st.withoutDangling id) := by
  refine h.congr rfl (fun _ => rfl) (fun _ _ hx => hx) (fun _ _ hs => hs) fun x g hg => ?_
  have hg' : (AList.erase id st.danglingSplits).lookup x = some g := hg
  rw [lookup_erase_ite] at hg'
  split at hg'
  · cases hg'
  · exact hg'

theorem ensureLineage_booked (h : Booked isStaticId extra st) (id : ChunkId) (lineage : ChunkDirectLineage) :
    Booked isStaticId extra (st.ensureLineage id lineage) := by
  obtain ⟨-, -, hdangling⟩ :=
    LineageDroppingCtx.insertLineageIfMissing_maps st.toLineageDroppingCtx id lineage
  refine h.congr rfl (fun _ => rfl) (fun _ _ hx => hx) (fun _ _ hs => hs) fun x g hg => ?_
  exact hdangling ▸ hg

/-- The pieces an earlier insertion of the chunk left, as the clean-up finds them. -/
def leftPieces (st : ChunkStore) (c : Chunk) : List Chunk :=
  ((st.withoutManifestEntries c).danglingSplits.lookup c.id).elim []
    fun g => g.filterMap (st.withoutManifestEntries c).physical

theorem leftPieces_kinds (h : Booked isStaticId extra st) (hv : st.catalog.Sound)
    (habsent : st.physical c.id = none) : ∀ d ∈ st.leftPieces c, isStaticId d.id = false := by
  intro d hd
  have hfirst := withoutManifestEntries_booked h habsent
  have hv' := hv.removes (withoutManifestEntries_cleanedUp habsent).removes
  unfold leftPieces at hd
  cases hg : (st.withoutManifestEntries c).danglingSplits.lookup c.id with
  | none =>
    rw [hg] at hd
    cases hd
  | some g =>
    rw [hg] at hd
    exact hfirst.kinds.pieces _ _ hg d.id (mem_filterMap_physical hv' hd).1

theorem cleanUp_booked (h : Booked isStaticId extra st) (hv : st.catalog.Sound)
    (habsent : st.physical c.id = none) : Booked isStaticId extra (st.cleanUp c).1 := by
  have hfirst := withoutManifestEntries_booked h habsent
  have hpieces := leftPieces_kinds h hv habsent
  unfold leftPieces at hpieces
  cases hg : (st.withoutManifestEntries c).danglingSplits.lookup c.id with
  | none =>
    rw [cleanUp_of_none hg]
    exact hfirst
  | some g =>
    rw [hg] at hpieces
    rw [cleanUp_of_some hg]
    exact removeChunksDeep_booked (withoutDangling_booked hfirst c.id) hpieces _

theorem prepared_booked (h : Booked isStaticId extra st) (hv : st.catalog.Sound)
    (habsent : st.physical c.id = none) : Booked isStaticId extra (st.prepared c) :=
  ensureLineage_booked (cleanUp_booked h hv habsent) c.id .volatile

def cleanUpDebits (st : ChunkStore) (c : Chunk) : List Debit :=
  (if st.isRootFromManifest c.id then shallowDebits [] none 0 st [c] else []) ++
    shallowDebits [] none 0 ((st.withoutManifestEntries c).withoutDangling c.id) (st.leftPieces c)

theorem cleanUpDebits_covered (h : Booked isStaticId [] st) (hv : st.catalog.Sound)
    (habsent : st.physical c.id = none) {d : Debit} (hd : d ∈ st.cleanUpDebits c) :
    d.Covered st.physicalChunks := by
  have hfirst := withoutManifestEntries_booked h habsent
  rcases mem_append.mp hd with hd | hd
  · -- the chunk itself is not there yet
    split at hd
    · simp [shallowDebits, habsent] at hd
    · cases hd
  · obtain ⟨-, hcov⟩ := shallowDebits_covered (withoutDangling_booked hfirst c.id)
      (leftPieces_kinds h hv habsent) hd
    refine hcov.mono (physicalChunks_subperm fun x e he => ?_)
    have hrem := (withoutManifestEntries_cleanedUp habsent).removes
    have hsome : ((st.withoutManifestEntries c).catalog.chunks x).isSome :=
      Option.isSome_of_eq_some he
    exact (hrem.isSome_of hsome).symm.trans he

/-! ## Storing chunks -/

theorem indexChunk_booked (h : Booked isStaticId extra st) (hkind : c.isStatic = false)
    (hid : isStaticId c.id = false) : Booked isStaticId (c :: extra) (st.indexChunk c) := by
  have hlists := indexChunk_lists st c
  refine ⟨⟨h.kinds.physical, h.kinds.static, fun id s hs => ?_, h.kinds.pieces⟩,
    h.tally.count rfl fun isStatic => ?_⟩
  · rcases (hlists.listed id s).mp hs with ⟨rfl, -⟩ | hs
    · exact hid
    · exact h.kinds.listed id s hs
  · cases isStatic with
    | true =>
      rw [if_neg (by simp [hkind]), add_zero]
      rfl
    | false =>
      rw [if_pos hkind]
      rfl

theorem storePhysical_booked (h : Booked isStaticId (c :: extra) st) (habsent : st.physical c.id = none)
    (hkind : c.isStatic = isStaticId c.id) : Booked isStaticId extra (st.storePhysical c) := by
  refine ⟨⟨fun id d hd => ?_, h.kinds.static, h.kinds.listed, h.kinds.pieces⟩,
    h.tally.store habsent rfl fun _ => rfl⟩
  have hd' : (AList.insert c.id c st.physicalChunksPerChunkId).lookup id = some d := hd
  rw [lookup_insert_ite] at hd'
  split at hd'
  · rename_i hid
    rw [hid, ← Option.some.inj hd']
    exact hkind
  · exact h.kinds.physical id d hd'

theorem foldl_storePiece_booked (c : Chunk) (pieces : List Chunk) : ∀ {ps : List Chunk} {st : ChunkStore},
    Booked isStaticId extra st → (∀ p ∈ ps, p.isStatic = false ∧ isStaticId p.id = false ∧
      st.physical p.id = none) → (ps.map (·.id)).Nodup →
      Booked isStaticId extra (ps.foldl (storePiece c pieces) st)
  | [], _, h, _, _ => h
  | p :: ps, st, h, hps, hnodup => by
    obtain ⟨hkind, hid, habsent⟩ := hps p mem_cons_self
    rw [map_cons, nodup_cons] at hnodup
    have hstored : Booked isStaticId extra (storePiece c pieces st p) := by
      refine storePhysical_booked ?_ habsent (hkind.trans hid.symm)
      exact indexChunk_booked (ensureLineage_booked h _ _) hkind hid
    rw [foldl_cons]
    refine foldl_storePiece_booked c pieces hstored (fun q hq => ?_) hnodup.2
    obtain ⟨hq1, hq2, hq3⟩ := hps q (mem_cons_of_mem _ hq)
    have hne : q.id ≠ p.id := fun heq => hnodup.1 (heq ▸ mem_map_of_mem hq)
    refine ⟨hq1, hq2, ?_⟩
    exact (lookup_insert_ite _ _ _ _).trans ((if_neg hne).trans hq3)

theorem recordSplit_booked (h : Booked isStaticId extra st) {pieces : List Chunk}
    (hpieces : ∀ p ∈ pieces, isStaticId p.id = false) :
    Booked isStaticId extra (st.recordSplit c pieces) := by
  refine ⟨⟨h.kinds.physical, h.kinds.static, h.kinds.listed, fun id g hg x hx => ?_⟩,
    h.tally.congr rfl fun _ => rfl⟩
  have hg' : (AList.insert c.id (pieces.map (·.id)) st.danglingSplits).lookup id = some g := hg
  rw [lookup_insert_ite] at hg'
  split at hg'
  · cases hg'
    obtain ⟨p, hp, rfl⟩ := mem_map.mp hx
    exact hpieces p hp
  · exact h.kinds.pieces id g hg' x hx

theorem recordSources_booked (h : Booked isStaticId extra st) (c elected m : Chunk) :
    Booked isStaticId extra (st.recordSources c elected m) := by
  refine ensureLineage_booked ?_ _ _
  exact h.congr rfl (fun _ => rfl) (fun _ _ hx => hx) (fun _ _ hs => hs) fun _ _ hg => hg

/-! ## Insertions -/

/-- The store in which overwritten chunks are removed: the map is updated, the chunk is counted. -/
def pointedStatic (st : ChunkStore) (c : Chunk) : ChunkStore :=
  { st with
    staticChunkIdsPerEntity := (staticUpdate st c).staticMap
    staticChunksStats := st.staticChunksStats + fromChunk c }

theorem pointedStatic_booked (h : Booked isStaticId extra st) (habsent : st.physical c.id = none)
    (hkind : c.isStatic = true) (hid : isStaticId c.id = true) :
    Booked isStaticId (c :: extra) (st.pointedStatic c) := by
  refine ⟨⟨h.kinds.physical, fun key id hkey => ?_, h.kinds.listed, h.kinds.pieces⟩,
    h.tally.count rfl fun isStatic => ?_⟩
  · rcases (staticUpdate_inv habsent).points key id hkey with rfl | hold
    · exact hid
    · exact h.kinds.static key id hold
  · cases isStatic with
    | true =>
      rw [if_pos hkind]
      rfl
    | false =>
      rw [if_neg (by simp [hkind]), add_zero]
      rfl

theorem overwritten_kinds (h : Booked isStaticId extra st) (habsent : st.physical c.id = none) :
    ∀ o ∈ Assoc.toList (staticUpdate st c).overwritten, isStaticId o.1 = true := by
  intro o ho
  obtain ⟨-, component, -, -, hkey⟩ :=
    (staticUpdate_inv habsent).overwritten o.1 o.2 (mem_toList.mp ho)
  exact h.kinds.static _ _ hkey

theorem insertStatic_booked (h : Booked isStaticId extra st) (habsent : st.physical c.id = none)
    (hkind : c.isStatic = true) (hid : isStaticId c.id = true) (lineage : ChunkDirectLineageReport) :
    Booked isStaticId (c :: extra) (st.insertStatic c lineage).1 := by
  have hkinds := overwritten_kinds h habsent
  refine foldlRecOn
    (motive := fun acc : ChunkStore × List ChunkStoreDiff => Booked isStaticId (c :: extra) acc.1) _ _ ?_ ?_
  · exact pointedStatic_booked h habsent hkind hid
  · intro acc hacc o ho
    exact (removeOverwritten_booked hacc (hkinds o ho) c.entityPath o.2).1

/-- The kinds an insertion relies on: the chunk is of the kind of its id, new ids are temporal. -/
structure InsertsKind (isStaticId : ChunkId → Bool) (env : Env) (c : Chunk) : Prop where
  chunk : c.isStatic = isStaticId c.id
  new : ∀ k, isStaticId (env.newId k) = false

theorem recordCompaction_booked {elected m : Chunk} (h : Booked isStaticId extra st)
    (hm : m.isStatic = false) (hmid : isStaticId m.id = false) (helected : isStaticId elected.id = false) :
    Booked isStaticId (m :: extra) ((st.indexChunk m).recordCompaction c elected m) := by
  refine removeChunksDeep_booked (recordSources_booked (indexChunk_booked h hm hmid) c elected m) ?_ _
  intro d hd
  rw [mem_singleton.mp hd]
  exact helected

theorem Insertion.booked {env : Env} (h : Booked isStaticId [] st) (hv : st.catalog.Sound)
    (habsent : st.physical c.id = none) (hfresh : Fresh env st c) (hkinds : InsertsKind isStaticId env c)
    (hins : Insertion env st c st') : Booked isStaticId [] st' := by
  have hprep := prepared_booked h hv habsent
  have hremoves := (cleanUp_spec hv habsent).removes
  have habsent' := prepared_absent hv habsent
  have hnew : ∀ j, (st.prepared c).physical (env.newId j) = none :=
    fun j => (available_prepared hv habsent hfresh j).physical
  cases hins with
  | pieces hstatic hsplit hlen =>
    have hids : ∀ p ∈ (st.piecesOf env c).1, isStaticId p.id = false := by
      intro p hp
      obtain ⟨j, -, -, hid⟩ := hsplit.ids.mem p hp
      rw [hid]
      exact hkinds.new j
    refine foldl_storePiece_booked c _ (recordSplit_booked hprep hids) (fun p hp => ?_) hsplit.ids.nodup
    obtain ⟨j, -, -, hid⟩ := hsplit.ids.mem p hp
    refine ⟨(hsplit.pieces p hp).temporal hstatic, hids p hp, ?_⟩
    rw [hid]
    exact hnew j
  | static hstatic =>
    have hid : isStaticId c.id = true := hkinds.chunk.symm.trans hstatic
    have hover := insertStatic_overwrites habsent' .volatile
    refine storePhysical_booked (insertStatic_booked hprep habsent' hstatic hid .volatile) ?_ hkinds.chunk
    exact hover.removes.absent habsent'
  | temporal hstatic hkeeps =>
    have hid : isStaticId c.id = false := hkinds.chunk.symm.trans hstatic
    exact storePhysical_booked (indexChunk_booked hprep hstatic hid) habsent' hkinds.chunk
  | @merged elected m hstatic hkeeps helected hne hconcat hroot hid hmerge hsorted =>
    obtain ⟨j, hj⟩ := hid
    have helected' : elected.isStatic = false := (isStatic_of_concatenable hconcat).symm.trans hstatic
    have hm : m.isStatic = false := hmerge.temporal helected'
    have hmid : isStaticId m.id = false := by
      rw [hj]
      exact hkinds.new j
    have hbooked := @recordCompaction_booked _ c _ _ elected m hprep hm hmid
      ((hprep.kinds.physical _ _ helected).symm.trans helected')
    refine storePhysical_booked hbooked ?_ (hm.trans hmid.symm)
    -- the removal of the elected chunk brings no chunk back
    have hv' : (st.prepared c).catalog.Sound := hv.removes hremoves
    have hv'' : (((st.prepared c).indexChunk m).recordSources c elected m).catalog.Sound :=
      ⟨hv'.id_eq, hv'.chunk⟩
    have hrem := (removeChunksDeep_removes hv'' [elected] .compaction).removes
    have hmabsent : (st.prepared c).physical m.id = none := by
      rw [hj]
      exact hnew j
    exact hrem.absent hmabsent

theorem insertChunk_booked {env : Env} {c : ValidChunk} (h : Booked isStaticId [] st)
    (hv : st.catalog.Sound) (hfresh : Fresh env st c.toChunk)
    (hkinds : InsertsKind isStaticId env c.toChunk) :
    Booked isStaticId [] (insertChunk env st c.toChunk).1 := by
  refine insertChunk_elim h fun hacc => ?_
  exact (insertChunk_cases hv c.wf hfresh hacc).1.booked h hv (sound_of_earlyReturn c.wf hacc.2).2.1
    hfresh hkinds

/-- The subtractions of an insertion: those of the clean-up, then those of the static branch or of a
compaction. The pieces of a split subtract nothing, since their ids are new. -/
def insertDebits (env : Env) (st : ChunkStore) (c : Chunk) : List Debit :=
  if st.Accepts c then
    st.cleanUpDebits c ++ if 1 < (st.piecesOf env c).1.length then []
      else if c.isStatic then
        overwriteDebits [c] c.entityPath ((st.prepared c).pointedStatic c)
          (Assoc.toList (staticUpdate (st.prepared c) c).overwritten)
      else
        match findAndElectCompactionCandidate env (st.prepared c) c with
        | none => []
        | some elected =>
          match elected.concatAndSort env (st.piecesOf env c).2 c with
          | .error _ => []
          | .ok (compacted, _) => shallowDebits [compacted] none 0
            (((st.prepared c).indexChunk compacted).recordSources c elected compacted) [elected]
  else []

theorem insertDebits_covered {env : Env} {c : ValidChunk} (h : Booked isStaticId [] st)
    (hv : st.catalog.Sound) (hkinds : InsertsKind isStaticId env c.toChunk) {d : Debit}
    (hd : d ∈ insertDebits env st c.toChunk) : d.Covered st.physicalChunks := by
  unfold insertDebits at hd
  split at hd
  · rename_i hacc
    obtain ⟨hc, habsent, -⟩ := sound_of_earlyReturn c.wf hacc.2
    have hprep := prepared_booked h hv habsent
    have hremoves := (cleanUp_spec hv habsent).removes
    have habsent' := prepared_absent hv habsent
    have hsub : (st.prepared c.toChunk).physicalChunks.Subperm st.physicalChunks := by
      refine physicalChunks_subperm fun x e he => ?_
      have hsome : ((st.prepared c.toChunk).catalog.chunks x).isSome := Option.isSome_of_eq_some he
      exact (hremoves.isSome_of hsome).symm.trans he
    rcases mem_append.mp hd with hd | hd
    · exact cleanUpDebits_covered h hv habsent hd
    · split at hd
      · cases hd
      · split at hd
        · rename_i hstatic
          have hpointed := pointedStatic_booked hprep habsent' hstatic (hkinds.chunk.symm.trans hstatic)
          exact (overwriteDebits_covered hpointed (overwritten_kinds hprep habsent') hd).2.mono hsub
        · rename_i hstatic
          split at hd
          · cases hd
          · rename_i elected helect
            obtain ⟨id, hphys, -, hconcat, -⟩ := findAndElectCompactionCandidate_spec helect
            have hv' : (st.prepared c.toChunk).catalog.Sound := hv.removes hremoves
            obtain rfl : elected.id = id := hv'.id_eq id elected hphys
            have helected := hv'.chunk _ elected hphys
            have htemporal : elected.isStatic = false :=
              (isStatic_of_concatenable hconcat).symm.trans (by simpa using hstatic)
            obtain ⟨m, k', hok, ⟨j, -, hid⟩, hmerge, -⟩ := concatAndSort_spec env
              (st.piecesOf env c.toChunk).2 helected.wf c.wf helected.nonempty hc.nonempty
              (concatenable_symm hconcat)
            rw [hok] at hd
            have hindexed := indexChunk_booked hprep (hmerge.temporal htemporal)
              (by rw [hid]; exact hkinds.new j)
            refine (shallowDebits_covered (recordSources_booked hindexed c.toChunk elected m) ?_ hd).2.mono hsub
            intro e he
            rw [mem_singleton.mp he]
            exact (hprep.kinds.physical _ _ hphys).symm.trans htemporal
  · cases hd

/-! ## Collections -/

theorem gcFindCandidates_temporal {options : GarbageCollectionOptions} {clock : GcClock} {target : Nat}
    (h : c ∈ st.gcFindCandidates options clock target) : c.isStatic = false := by
  rcases gcFindCandidates_cases h with ⟨timeline, time, -, hc, -⟩ | hc
  · exact isStatic_eq_false_iff.mpr ⟨timeline, (mem_findTemporalChunksFurthestFrom hc).2⟩
  · exact (mem_chunksInPriorityOrder.mp hc).2.1

theorem gcPlan_kinds (h : Booked isStaticId extra st) (hv : st.catalog.Sound)
    (options : GarbageCollectionOptions) (clock : GcClock) :
    (∀ c ∈ (st.gcPlan options clock).1, isStaticId c.id = false) ∧
      ∀ c ∈ (st.gcPlan options clock).2, isStaticId c.id = false := by
  obtain ⟨hroots, hdeep⟩ := gcPlan_spec hv options clock
  have htemporal : ∀ c, c ∈ (st.gcPlan options clock).1 ∨ c ∈ (st.gcPlan options clock).2 →
      c.isStatic = false := fun c hc => gcFindCandidates_temporal (mem_gcPlan.mp hc)
  refine ⟨fun c hc => ?_, fun c hc => ?_⟩
  · exact (h.kinds.physical _ _ (hroots c hc).1).symm.trans (htemporal c (.inl hc))
  · exact (h.kinds.physical _ _ (hdeep c hc)).symm.trans (htemporal c (.inr hc))

def gcDebits (st : ChunkStore) (options : GarbageCollectionOptions) (clock : GcClock) : List Debit :=
  shallowDebits [] (some clock.sweepExhausted) 0 st (st.gcPlan options clock).1 ++
    shallowDebits [] none 0 (st.removeChunksShallow (st.gcPlan options clock).1
      (some clock.sweepExhausted) .garbageCollection).1 (st.gcPlan options clock).2

theorem gc_booked (h : Booked isStaticId extra st) (hv : st.catalog.Sound)
    (options : GarbageCollectionOptions) (clock : GcClock) :
    Booked isStaticId extra (st.gc options clock).1 := by
  obtain ⟨hroots, hdeep⟩ := gcPlan_kinds h hv options clock
  rw [gc_eq]
  exact removeChunksDeep_booked (removeChunksShallow_booked h hroots _ _) hdeep _

theorem removeChunksShallow_subperm (st : ChunkStore) (chunks : List Chunk)
    (budget : Option (Nat → Bool)) (reason : ChunkDeletionReason) :
    (st.removeChunksShallow chunks budget reason).1.physicalChunks.Subperm st.physicalChunks :=
  removeShallowLoop_induct (I := fun st' => st'.physicalChunks.Subperm st.physicalChunks)
    (fun st' c _ h => (physicalChunks_subperm (removeChunkShallow_physical_of st' c)).trans h)
    (Subperm.refl _)

theorem gcDebits_covered (h : Booked isStaticId [] st) (hv : st.catalog.Sound)
    {options : GarbageCollectionOptions} {clock : GcClock} {d : Debit}
    (hd : d ∈ st.gcDebits options clock) : d.Covered st.physicalChunks := by
  obtain ⟨hroots, hdeep⟩ := gcPlan_kinds h hv options clock
  rcases mem_append.mp hd with hd | hd
  · exact (shallowDebits_covered h hroots hd).2
  · have hrest := removeChunksShallow_booked h hroots (some clock.sweepExhausted) .garbageCollection
    exact (shallowDebits_covered hrest hdeep hd).2.mono (removeChunksShallow_subperm _ _ _ _)

/-! ## Dropping an entity -/

/-- The store before the chunks of an entity are dropped: no index mentions it any more. -/
def withoutEntity (st : ChunkStore) (e : EntityPath) : ChunkStore :=
  (((st.dropStaticMap e).removeMinRowIds (st.staticChunkIds e).elems).dropTemporalMaps e).removeMinRowIds
    (st.temporalChunkIds e).elems

theorem removeMinRowIds_booked (h : Booked isStaticId extra st) (ids : List ChunkId) :
    Booked isStaticId extra (st.removeMinRowIds ids) := by
  refine foldlRecOn (motive := Booked isStaticId extra) _ _ h fun st' hst' id _ => ?_
  split
  · exact removeMinRowId_booked hst' _ id
  · exact hst'

theorem withoutEntity_booked (h : Booked isStaticId extra st) (e : EntityPath) :
    Booked isStaticId extra (st.withoutEntity e) := by
  have hstatic : Booked isStaticId extra (st.dropStaticMap e) := by
    refine h.congr rfl (fun _ => rfl) (fun key id hid => ?_) (fun _ _ hs => hs) fun _ _ hg => hg
    have hid' : (retainKeys st.staticChunkIdsPerEntity fun k => k.1 ≠ e).lookup key = some id := hid
    rw [lookup_retainKeys] at hid'
    split at hid'
    · exact hid'
    · cases hid'
  refine removeMinRowIds_booked ?_ _
  refine (removeMinRowIds_booked hstatic (st.staticChunkIds e).elems).congr rfl (fun _ => rfl)
    (fun _ _ hx => hx) (fun id s hs => ?_) fun _ _ hg => hg
  exact ((dropTemporalMaps_listed _ e id s).mp hs).2

theorem entityIds_kinds (h : Booked isStaticId extra st) (e : EntityPath) :
    (∀ id ∈ (st.staticChunkIds e).elems, isStaticId id = true) ∧
      ∀ id ∈ (st.temporalChunkIds e).elems, isStaticId id = false := by
  refine ⟨fun id hid => ?_, fun id hid => ?_⟩
  · obtain ⟨component, hkey⟩ := mem_staticChunkIds.mp (OrdSet.mem_def.mpr hid)
    exact h.kinds.static _ _ hkey
  · obtain ⟨timeline, t, hs⟩ := mem_temporalChunkIds.mp (OrdSet.mem_def.mpr hid)
    exact h.kinds.listed _ _ hs

theorem dropEntityPath_booked (h : Booked isStaticId extra st) (e : EntityPath) :
    Booked isStaticId extra (st.dropEntityPath e).1 := by
  obtain ⟨hstatic, htemporal⟩ := entityIds_kinds h e
  exact dropPhysical_booked false (dropPhysical_booked true (withoutEntity_booked h e) hstatic) htemporal

/-- The subtractions of dropping an entity. -/
def dropEntityDebits (st : ChunkStore) (e : EntityPath) : List Debit :=
  dropDebits true (st.withoutEntity e) (st.staticChunkIds e).elems ++
    dropDebits false (dropPhysical true (st.withoutEntity e) (st.staticChunkIds e).elems).1
      (st.temporalChunkIds e).elems

theorem removeMinRowIds_physical (st : ChunkStore) (ids : List ChunkId) :
    (st.removeMinRowIds ids).physical = st.physical :=
  congrArg Catalog.chunks (removeMinRowIds_catalog ids st)

theorem dropEntityDebits_covered (h : Booked isStaticId [] st) {e : EntityPath} {d : Debit}
    (hd : d ∈ st.dropEntityDebits e) : d.Covered st.physicalChunks := by
  obtain ⟨hstatic, htemporal⟩ := entityIds_kinds h e
  have hwithout := withoutEntity_booked h e
  have hphys : (st.withoutEntity e).physical = st.physical := by
    unfold withoutEntity
    rw [removeMinRowIds_physical]
    exact removeMinRowIds_physical (st.dropStaticMap e) _
  have hsub : (st.withoutEntity e).physicalChunks.Subperm st.physicalChunks :=
    physicalChunks_subperm fun x c hc => hphys ▸ hc
  rcases mem_append.mp hd with hd | hd
  · exact (dropDebits_covered true hwithout hstatic hd).2.mono hsub
  · have hrest := dropPhysical_booked true hwithout hstatic
    refine ((dropDebits_covered false hrest htemporal hd).2.mono (physicalChunks_subperm ?_)).mono hsub
    intro x c hc
    have hchunks := congrArg Catalog.chunks
      (dropPhysical_catalog true (st.staticChunkIds e).elems (st.withoutEntity e))
    have hc' := (congrFun hchunks x).symm.trans hc
    dsimp only at hc'
    split at hc'
    · cases hc'
    · exact hc'

/-! ## The counters follow the subtractions -/

variable {n n' n'' : Bool → ChunkStoreChunkStats} {debits rest : List Debit}

/-- What leads from some counters to others: chunks that are added, and these subtractions in their
order, each from what the counter holds then. -/
inductive Spends : (Bool → ChunkStoreChunkStats) → List Debit → (Bool → ChunkStoreChunkStats) → Prop
  | done (n : Bool → ChunkStoreChunkStats) : Spends n [] n
  | add {n n' : Bool → ChunkStoreChunkStats} {debits : List Debit} (isStatic : Bool) (c : Chunk)
      (h : Spends (Function.update n isStatic (n isStatic + fromChunk c)) debits n') : Spends n debits n'
  | take {n n' : Bool → ChunkStoreChunkStats} {debits : List Debit} (isStatic : Bool) (d : Debit)
      (hd : d.counter = n isStatic)
      (h : Spends (Function.update n isStatic (n isStatic - fromChunk d.chunk)) debits n') :
      Spends n (d :: debits) n'

namespace Spends

theorem append (h : Spends n debits n') (h' : Spends n' rest n'') : Spends n (debits ++ rest) n'' := by
  induction h with
  | done => exact h'
  | add isStatic c _ ih => exact .add isStatic c (ih h')
  | take isStatic d hd _ ih => exact .take isStatic d hd (ih h')

theorem counter_eq_update {isStatic : Bool} {s : ChunkStoreChunkStats} (h : st'.counter isStatic = s)
    (hother : st'.counter (!isStatic) = st.counter (!isStatic)) :
    st'.counter = Function.update st.counter isStatic s := by
  funext kind
  by_cases hkind : kind = isStatic
  · rw [hkind, h, Function.update_self]
  · rw [Bool.eq_not_of_ne hkind, hother, Function.update_of_ne (Bool.not_ne_self isStatic)]

theorem addTo (st' : ChunkStore) (isStatic : Bool) (c : Chunk)
    (hcounter : st'.counter isStatic = st.counter isStatic + fromChunk c)
    (hother : st'.counter (!isStatic) = st.counter (!isStatic)) (h : Spends st'.counter debits n) :
    Spends st.counter debits n :=
  .add isStatic c (counter_eq_update hcounter hother ▸ h)

theorem takeFrom (st' : ChunkStore) (isStatic : Bool)
    (hcounter : st'.counter isStatic = st.counter isStatic - fromChunk c)
    (hother : st'.counter (!isStatic) = st.counter (!isStatic)) (h : Spends st'.counter debits n) :
    Spends st.counter (⟨st.counter isStatic, c, extra⟩ :: debits) n :=
  .take isStatic ⟨st.counter isStatic, c, extra⟩ rfl (counter_eq_update hcounter hother ▸ h)

end Spends

open Spends

theorem removeShallowLoop_spends {budget : Option (Nat → Bool)} {reason : ChunkDeletionReason} :
    ∀ {chunks : List Chunk} {n : Nat} {st : ChunkStore}, Spends st.counter
      (shallowDebits extra budget n st chunks) (removeShallowLoop budget reason n st chunks).1.counter
  | [], _, _ => .done _
  | c :: chunks, n, st => by
    have hmin : (st.removeMinRowId c c.id).counter = st.counter := by
      unfold removeMinRowId
      split <;> rfl
    have hphys : (st.removeMinRowId c c.id).physical c.id = st.physical c.id :=
      congrFun (congrArg Catalog.chunks (removeMinRowId_catalog st c c.id)) c.id
    rw [shallowDebits, removeShallowLoop, removeChunkShallow, hphys]
    cases st.physical c.id with
    | none =>
      have hrest := @removeShallowLoop_spends budget reason chunks n (st.removeMinRowId c c.id)
      rwa [hmin] at hrest
    | some removed =>
      obtain ⟨-, hstatic, htemporal⟩ := releasePhysical_counter (st.removeMinRowId c c.id) removed c.id
      rw [hmin] at hstatic htemporal
      refine takeFrom ((st.removeMinRowId c c.id).releasePhysical removed c.id) false htemporal hstatic ?_
      dsimp only
      split
      · exact .done _
      · exact removeShallowLoop_spends

theorem removeChunksDeep_spends {chunks : List Chunk} {reason : ChunkDeletionReason} :
    Spends st.counter (shallowDebits extra none 0 st chunks) (st.removeChunksDeep chunks reason).1.counter := by
  have hdeep : (st.removeChunksDeep chunks reason).1.counter =
      (st.removeChunksShallow chunks none reason).1.counter :=
    removeDeepLoop_induct (I := fun st' => st'.counter = (st.removeChunksShallow chunks none reason).1.counter)
      (fun _ _ _ h => h) rfl
  rw [hdeep]
  exact removeShallowLoop_spends

theorem cleanUp_spends : Spends st.counter (st.cleanUpDebits c) (st.cleanUp c).1.counter := by
  have hfirst : Spends st.counter (if st.isRootFromManifest c.id then shallowDebits [] none 0 st [c] else [])
      (st.withoutManifestEntries c).counter := by
    unfold withoutManifestEntries
    split
    · exact removeChunksDeep_spends
    · exact .done _
  refine hfirst.append ?_
  unfold leftPieces
  cases hg : (st.withoutManifestEntries c).danglingSplits.lookup c.id with
  | none =>
    rw [cleanUp_of_none hg]
    exact .done _
  | some g =>
    rw [cleanUp_of_some hg]
    exact @removeChunksDeep_spends ((st.withoutManifestEntries c).withoutDangling c.id) [] _ _

theorem removeOverwritten_spends {e : EntityPath} : ∀ {os : List (ChunkId × RowId)}
    {acc : ChunkStore × List ChunkStoreDiff},
    Spends acc.1.counter (overwriteDebits extra e acc.1 os) (os.foldl (removeOverwritten e) acc).1.counter
  | [], _ => .done _
  | o :: os, acc => by
    have hstore : (removeOverwritten e (acc.1, []) o).1 = (removeOverwritten e acc o).1 := by
      unfold removeOverwritten
      dsimp only
      split
      · rfl
      · split <;> rfl
    rw [overwriteDebits, hstore, foldl_cons]
    refine append ?_ removeOverwritten_spends
    unfold removeOverwritten
    dsimp only
    split
    · exact .done _
    · have hphys : (acc.1.eraseRowId o.2 o.1).physical o.1 = acc.1.physical o.1 := rfl
      rw [hphys]
      cases acc.1.physical o.1 with
      | none => exact .done _
      | some removed =>
        exact takeFrom { ((acc.1.eraseRowId o.2 o.1).erasePhysical o.1).dropReference o.1 with
          staticChunksStats := acc.1.staticChunksStats - fromChunk removed } true rfl rfl (.done _)

theorem dropPhysical_spends (isStatic : Bool) : ∀ {ids : List ChunkId} {st : ChunkStore},
    Spends st.counter (dropDebits isStatic st ids) (dropPhysical isStatic st ids).1.counter
  | [], _ => .done _
  | x :: ids, st => by
    rw [dropPhysical_cons, dropDebits]
    cases hc : st.physical x with
    | none =>
      have hsame : (dropPhysical isStatic st [x]).1 = st := by simp [dropPhysical, hc]
      rw [hsame]
      exact dropPhysical_spends isStatic
    | some c =>
      refine takeFrom _ isStatic ?_ ?_ (dropPhysical_spends isStatic) <;> cases isStatic <;>
        simp [dropPhysical, hc, counter, erasePhysical]

theorem foldl_storePiece_spends (c : Chunk) (pieces : List Chunk) : ∀ {ps : List Chunk} {st : ChunkStore},
    Spends st.counter [] (ps.foldl (storePiece c pieces) st).counter
  | [], _ => .done _
  | p :: _, st => addTo (storePiece c pieces st p) false p rfl rfl (foldl_storePiece_spends c pieces)

theorem insertWhole_spends {env : Env} {k : Nat} {lineage : ChunkDirectLineageReport} :
    Spends st.counter
      (if c.isStatic then
        overwriteDebits [c] c.entityPath (st.pointedStatic c) (Assoc.toList (staticUpdate st c).overwritten)
      else
        match findAndElectCompactionCandidate env st c with
        | none => []
        | some elected =>
          match elected.concatAndSort env k c with
          | .error _ => []
          | .ok (compacted, _) =>
            shallowDebits [compacted] none 0 ((st.indexChunk compacted).recordSources c elected compacted) [elected])
      (insertWhole env k st c lineage).1.counter := by
  unfold insertWhole
  split
  · exact addTo (st.pointedStatic c) true c rfl rfl (@removeOverwritten_spends [c] c.entityPath _ (_, _))
  · unfold insertTemporal
    cases findAndElectCompactionCandidate env st c with
    | none => exact addTo (st.indexChunk c) false c rfl rfl (.done _)
    | some elected =>
      dsimp only
      cases elected.concatAndSort env k c with
      | error e => exact .done _
      | ok merged =>
        exact addTo (st.indexChunk merged.1) false merged.1 rfl rfl
          (@removeChunksDeep_spends ((st.indexChunk merged.1).recordSources c elected merged.1) _ _ _)

theorem insertChunk_spends {env : Env} {c : ValidChunk} (hv : st.catalog.Sound) (hfresh : Fresh env st c.toChunk) :
    Spends st.counter (insertDebits env st c.toChunk) (insertChunk env st c.toChunk).1.counter := by
  by_cases hacc : st.Accepts c.toChunk
  · obtain ⟨hc, habsent, -⟩ := sound_of_earlyReturn c.wf hacc.2
    have hrows : c.numRows ≠ 0 := fun h => hc.nonempty (length_eq_zero_iff.mp h)
    obtain ⟨fuel, hfuel⟩ : ∃ fuel, c.numRows + 1 = fuel + 2 := ⟨c.numRows - 1, by omega⟩
    rw [insertDebits, if_pos hacc, insertChunk, hacc.1, hfuel]
    show Spends _ _ (insertChunkImpl env (fuel + 2) 0 st c.toChunk .volatile).1.counter
    rw [insertChunkImpl_eq hacc.2]
    refine cleanUp_spends.append ?_
    unfold prependDeletions
    split
    · rename_i hlen
      rw [insertPieces_piecesOf hv hc habsent hfresh hlen]
      exact @foldl_storePiece_spends c.toChunk _ _ ((st.prepared c.toChunk).recordSplit c.toChunk _)
    · exact @insertWhole_spends (st.prepared c.toChunk) _ _ _ _
  · rw [insertDebits, if_neg hacc, insertChunk_of_not_accepts hacc]
    exact .done _

theorem dropEntityPath_spends (e : EntityPath) :
    Spends st.counter (st.dropEntityDebits e) (st.dropEntityPath e).1.counter := by
  have hwithout : (st.withoutEntity e).counter = st.counter := by
    obtain ⟨_, hstatic⟩ := removeMinRowIds_eq (st.staticChunkIds e).elems (st.dropStaticMap e)
    unfold withoutEntity
    rw [hstatic]
    obtain ⟨_, htemporal⟩ := removeMinRowIds_eq (st.temporalChunkIds e).elems (dropTemporalMaps _ e)
    rw [htemporal]
    rfl
  rw [← hwithout]
  exact (dropPhysical_spends true).append (dropPhysical_spends false)

theorem insertDlrManifest_counter (manifest : DlrManifest) : (st.insertDlrManifest manifest).1.counter = st.counter := by
  have hfold : ∀ {α : Type} {f : ChunkStore → α → ChunkStore}, (∀ st a, (f st a).counter = st.counter) →
      ∀ (l : List α) (st : ChunkStore), (l.foldl f st).counter = st.counter := fun hf l st =>
    foldlRecOn (motive := fun st' : ChunkStore => st'.counter = st.counter) l _ rfl fun st' h a _ => (hf st' a).trans h
  unfold insertDlrManifest
  dsimp only
  rw [hfold (f := listEntry) fun _ _ => rfl, hfold (f := announce false) fun _ _ => rfl,
    hfold (f := pointStatic) fun _ _ => rfl, hfold (f := announce true) fun _ _ => rfl]

end ChunkStore

/-! ## Runs -/

namespace Op

open ChunkStore

/-- The subtractions an operation makes, each with what the counter holds before it. -/
def debits (st : ChunkStore) : Op → List Debit
  | insertDlrManifest _ => []
  | insertChunk env c => insertDebits env st c.toChunk
  | gc options clock => st.gcDebits options clock
  | removeChunksShallow chunks budget _ => shallowDebits [] budget 0 st (chunks.map (·.toChunk))
  | removeChunksDeep chunks _ => shallowDebits [] none 0 st (chunks.map (·.toChunk))
  | dropEntityPath entity => st.dropEntityDebits entity

def isManifestFree : Op → Bool
  | insertDlrManifest _ => false
  | _ => true

/-- Explicit removals are given temporal chunks only. -/
def removesTemporal : Op → Bool
  | removeChunksShallow chunks _ _ => chunks.all fun c => !c.isStatic
  | removeChunksDeep chunks _ => chunks.all fun c => !c.isStatic
  | _ => true

/-- Every id is either for static chunks or for temporal ones, and explicit removals are given ids of
temporal chunks. -/
def KeepsKinds (isStaticId : ChunkId → Bool) : Op → Prop
  | insertDlrManifest _ => False
  | insertChunk env c => InsertsKind isStaticId env c.toChunk
  | removeChunksShallow chunks _ _ => ∀ c ∈ chunks, isStaticId c.id = false
  | removeChunksDeep chunks _ => ∀ c ∈ chunks, isStaticId c.id = false
  | _ => True

variable {st : ChunkStore} {op : Op} {isStaticId : ChunkId → Bool}

/-- The subtractions of an operation are those that its run makes. -/
theorem run_spends (hv : st.catalog.Sound) (hop : op.Possible st) :
    Spends st.counter (op.debits st) (op.run st).counter := by
  cases op with
  | insertDlrManifest manifest =>
    show Spends st.counter [] (st.insertDlrManifest manifest).1.counter
    rw [insertDlrManifest_counter]
    exact .done _
  | insertChunk env c => exact insertChunk_spends hv hop
  | gc options clock =>
    show Spends _ _ (st.gc options clock).1.counter
    rw [gc_eq]
    exact removeShallowLoop_spends.append removeChunksDeep_spends
  | removeChunksShallow chunks budget reason => exact removeShallowLoop_spends
  | removeChunksDeep chunks reason => exact removeChunksDeep_spends
  | dropEntityPath e => exact dropEntityPath_spends e

theorem toChunk_kinds {chunks : List ValidChunk} (h : ∀ c ∈ chunks, isStaticId c.id = false) :
    ∀ c ∈ chunks.map (·.toChunk), isStaticId c.id = false := by
  intro c hc
  obtain ⟨d, hd, rfl⟩ := mem_map.mp hc
  exact h d hd

theorem run_booked (h : Booked isStaticId [] st) (hv : st.catalog.Sound) (hop : op.Possible st)
    (hkinds : op.KeepsKinds isStaticId) : Booked isStaticId [] (op.run st) := by
  cases op with
  | insertDlrManifest manifest => exact hkinds.elim
  | insertChunk env c => exact insertChunk_booked h hv hop hkinds
  | gc options clock => exact gc_booked h hv options clock
  | removeChunksShallow chunks budget reason => exact removeChunksShallow_booked h (toChunk_kinds hkinds) budget reason
  | removeChunksDeep chunks reason => exact removeChunksDeep_booked h (toChunk_kinds hkinds) reason
  | dropEntityPath entity => exact dropEntityPath_booked h entity

theorem debits_covered (h : Booked isStaticId [] st) (hv : st.catalog.Sound)
    (hkinds : op.KeepsKinds isStaticId) {d : Debit} (hd : d ∈ op.debits st) :
    d.Covered st.physicalChunks := by
  cases op with
  | insertDlrManifest manifest => exact hkinds.elim
  | insertChunk env c => exact insertDebits_covered h hv hkinds hd
  | gc options clock => exact gcDebits_covered h hv hd
  | removeChunksShallow chunks budget reason => exact (shallowDebits_covered h (toChunk_kinds hkinds) hd).2
  | removeChunksDeep chunks reason => exact (shallowDebits_covered h (toChunk_kinds hkinds) hd).2
  | dropEntityPath entity => exact dropEntityDebits_covered h hd

end Op

namespace ChunkStore

open ChunkStoreChunkStats

variable {st : ChunkStore} {isStaticId : ChunkId → Bool}

theorem new_booked (config : ChunkSplitConfig) : Booked isStaticId [] (.new config) := by
  refine ⟨⟨fun id c hc => ?_, fun key id hid => ?_, fun id s hs => ?_, fun id g hg => ?_⟩, fun isStatic => ?_⟩
  · cases hc
  · cases hid
  · exact absurd hs (not_listedAt_new config id s)
  · cases hg
  · cases isStatic <;> rfl

theorem Reachable.booked (h : Reachable (fun _ op => op.KeepsKinds isStaticId) st) : Booked isStaticId [] st := by
  induction h with
  | new config => exact new_booked config
  | step hst hop hkinds ih => exact Op.run_booked ih hst.sound hop hkinds

/-- Each counter is the sum over the physical chunks of its kind. -/
structure StatsExact (st : ChunkStore) : Prop where
  static : st.staticChunksStats = ofChunks (st.physicalChunks.filter fun c => c.isStatic)
  temporal : st.temporalPhysicalChunksStats = ofChunks (st.physicalChunks.filter fun c => !c.isStatic)

theorem Booked.statsExact (h : Booked isStaticId [] st) : st.StatsExact := by
  have hstatic := h.tally true
  have htemporal := h.tally false
  simp only [ofKind, nil_append, beq_true, beq_false] at hstatic htemporal
  exact ⟨hstatic, htemporal⟩

/-- The counters are exact in every store a run leads to, and whatever comes next, no subtraction
underflows as long as the chunks it counts fit in the counters. -/
theorem reachable_statsExact (h : Reachable (fun _ op => op.KeepsKinds isStaticId) st) :
    st.StatsExact ∧ ∀ op : Op, op.KeepsKinds isStaticId → ∀ d ∈ op.debits st,
      Fits (d.pending ++ st.physicalChunks) → fromChunk d.chunk ≤ d.counter := by
  have hbooked := h.booked
  refine ⟨hbooked.statsExact, fun op hkinds d hd hfits => ?_⟩
  exact (Op.debits_covered hbooked h.sound hkinds hd).le hfits

def cameraChunk (id : ChunkId) : ValidChunk where
  toChunk := .ofColumns id ⟨["camera"]⟩ 0 [7] [] [(⟨"color"⟩, [some []])]
  sane := rfl

def twoKindsStore : ChunkStore :=
  (Op.insertChunk (.countingFrom 100) (cameraChunk 2)).run
    ((Op.insertChunk (.countingFrom 100) interleavedChunk).run (.new ⟨0, 0, 0⟩))

/-- The counters are exact there, and dropping the entity of the temporal chunk subtracts it. -/
theorem twoKindsStore_statsExact : twoKindsStore.StatsExact ∧
    (Op.dropEntityPath ⟨["robot"]⟩).debits twoKindsStore ≠ [] ∧
    ∀ d ∈ (Op.dropEntityPath ⟨["robot"]⟩).debits twoKindsStore, fromChunk d.chunk ≤ d.counter := by
  have hreach : Reachable (fun _ op => op.KeepsKinds fun id => decide (id = 2)) twoKindsStore := by
    refine .step (.step (.new _) fresh_countingFrom ?_)
      fresh_countingFrom ?_
    · refine ⟨rfl, fun k => decide_eq_false ?_⟩
      show 100 + k ≠ 2
      omega
    · refine ⟨rfl, fun k => decide_eq_false ?_⟩
      show 100 + k ≠ 2
      omega
  obtain ⟨hexact, hdebits⟩ := reachable_statsExact hreach
  refine ⟨hexact, by decide, fun d hd => hdebits (.dropEntityPath ⟨["robot"]⟩) trivial d hd ?_⟩
  have hone : (Op.dropEntityPath ⟨["robot"]⟩).debits twoKindsStore =
      [⟨twoKindsStore.counter false, interleavedChunk.toChunk, []⟩] := by rfl
  rw [mem_singleton.mp hd]
  exact ⟨by decide, by decide, by decide, by decide⟩

def removedStaticStore : ChunkStore :=
  (Op.removeChunksShallow [cameraChunk 2] none .explicitDrop).run
    ((Op.insertChunk (.countingFrom 100) (cameraChunk 2)).run (.new ⟨0, 0, 0⟩))

/-- The id of a temporal chunk stays listed after its removal, since dropping its entity before left
the reference count of its lineage one too high; a static chunk of another entity takes the id. -/
def reusedIdStore : ChunkStore :=
  (Op.insertChunk (.countingFrom 100) (cameraChunk 1)).run
    ((Op.removeChunksShallow [interleavedChunk] none .explicitDrop).run
      ((Op.insertChunk (.countingFrom 100) interleavedChunk).run
        ((Op.dropEntityPath ⟨["robot"]⟩).run
          ((Op.insertChunk (.countingFrom 100) interleavedChunk).run (.new ⟨0, 0, 0⟩)))))

/-- The counters drift when a removal is given a static chunk; and when only temporal chunks are
removed, dropping an entity can still subtract a static chunk of a reused id as a temporal one. -/
theorem removedStatic_not_statsExact :
    (Reachable (fun _ op => op.isManifestFree = true) removedStaticStore ∧ ¬ removedStaticStore.StatsExact) ∧
    Reachable (fun _ op => op.isManifestFree = true ∧ op.removesTemporal = true)
        ((Op.dropEntityPath ⟨["robot"]⟩).run reusedIdStore) ∧
      ¬ ((Op.dropEntityPath ⟨["robot"]⟩).run reusedIdStore).StatsExact := by
  refine ⟨⟨.step (.step (.new _) fresh_countingFrom rfl) trivial rfl,
    fun h => ?_⟩, ?_, fun h => ?_⟩
  · have hstatic := h.static
    revert hstatic
    decide
  · refine .step (.step (.step (.step (.step (.step (.new _) ?_ ⟨rfl, rfl⟩) trivial ⟨rfl, rfl⟩) ?_
      ⟨rfl, rfl⟩) trivial ⟨rfl, by decide⟩) ?_ ⟨rfl, rfl⟩) trivial ⟨rfl, rfl⟩
    · exact fresh_countingFrom
    · exact fresh_countingFrom
    · exact fresh_countingFrom
  · have hstatic := h.static
    revert hstatic
    decide

end ChunkStore

end Dalaran
