import Dalaran.Store.Outcome

/-
  Runs of a store: its mutating operations, in any order.

  `Reachable allowed` is the set of stores that operations lead to, from a new
  store, each operation allowed in the store it runs on. A call of
  `insert_chunk` draws new ids (`Op.Possible`); nothing else is asked of it.
-/

namespace Dalaran

open List Assoc TimeIndex OrdSet ChunkStore Catalog

/-- The operations that change a store. -/
inductive Op where
  | insertDlrManifest (manifest : DlrManifest)
  | insertChunk (env : Env) (c : ValidChunk)
  | gc (options : GarbageCollectionOptions) (clock : GcClock)
  | removeChunksShallow (chunks : List ValidChunk) (budget : Option (Nat → Bool))
      (reason : ChunkDeletionReason)
  | removeChunksDeep (chunks : List ValidChunk) (reason : ChunkDeletionReason)
  | dropEntityPath (entity : EntityPath)

namespace Op

def run (st : ChunkStore) : Op → ChunkStore
  | insertDlrManifest manifest => (st.insertDlrManifest manifest).1
  | insertChunk env c => (ChunkStore.insertChunk env st c.toChunk).1
  | gc options clock => (st.gc options clock).1
  | removeChunksShallow chunks budget reason =>
    (st.removeChunksShallow (chunks.map (·.toChunk)) budget reason).1
  | removeChunksDeep chunks reason => (st.removeChunksDeep (chunks.map (·.toChunk)) reason).1
  | dropEntityPath entity => (st.dropEntityPath entity).1

/-- The ids an insertion draws are new. -/
def Possible (st : ChunkStore) : Op → Prop
  | insertChunk env c => ChunkStore.Fresh env st c.toChunk
  | _ => True

def isInsertOrGc : Op → Bool
  | insertChunk .. => true
  | gc .. => true
  | _ => false

def isIngestOrGc : Op → Bool
  | insertDlrManifest .. => true
  | insertChunk .. => true
  | gc .. => true
  | _ => false

end Op

/-- The slots one entry of a manifest stands for: a component's range, in both indices. -/
def EntrySlot (entity : EntityPath) (timeline : Timeline) (component : ComponentIdentifier)
    (r : AbsoluteTimeRange) : Slot → Prop
  | .component e tl co edge t =>
    e = entity ∧ tl = timeline.name ∧ co = component ∧ t = r.edge edge
  | .timeline e tl edge t => e = entity ∧ tl = timeline.name ∧ t = r.edge edge

def DlrManifest.ListsAt (manifest : DlrManifest) (id : ChunkId) (s : Slot) : Prop :=
  ∃ entity timeline component entry, manifest.temporalMap.lookup (entity, timeline, component, id) = some entry ∧
    EntrySlot entity timeline component entry.timeRange s

namespace ChunkStore

/-- The stores that allowed operations lead to. -/
inductive Reachable (allowed : ChunkStore → Op → Prop) : ChunkStore → Prop
  | new (config : ChunkSplitConfig) : Reachable allowed (ChunkStore.new config)
  | step {st : ChunkStore} {op : Op} (h : Reachable allowed st) (hop : op.Possible st)
      (hallowed : allowed st op) : Reachable allowed (op.run st)

open Catalog

variable {st st' : ChunkStore}

/-! ## Collections -/

variable {c : Chunk}

theorem mem_of_mem_markUntil {stop : Nat → Bool} : ∀ {chunks : List Chunk} {n remaining : Nat},
    c ∈ (markUntil stop n remaining chunks).1 → c ∈ chunks
  | [], _, _, h => h
  | d :: chunks, n, remaining, h => by
    unfold markUntil at h
    split at h
    · rw [mem_singleton.mp h]
      exact mem_cons_self
    · split at h
      · rw [mem_singleton.mp h]
        exact mem_cons_self
      · rcases mem_cons.mp h with rfl | h
        · exact mem_cons_self
        · exact mem_cons_of_mem _ (mem_of_mem_markUntil h)

variable {options : GarbageCollectionOptions}

theorem gcFindCandidates_cases {clock : GcClock} {target : Nat} (h : c ∈ st.gcFindCandidates options clock target) :
    (∃ timeline time, options.furthestFrom = some (timeline, time) ∧
        c ∈ st.findTemporalChunksFurthestFrom timeline time ∧ options.isChunkProtected c = false) ∨
      c ∈ st.chunksInPriorityOrder options := by
  have hfiltered : ∀ {timeline time}, options.furthestFrom = some (timeline, time) →
      c ∈ (st.findTemporalChunksFurthestFrom timeline time).filter (fun c => !options.isChunkProtected c) →
      ∃ timeline time, options.furthestFrom = some (timeline, time) ∧
        c ∈ st.findTemporalChunksFurthestFrom timeline time ∧ options.isChunkProtected c = false := by
    intro timeline time hfurthest hc
    obtain ⟨hmem, hprotected⟩ := mem_filter.mp hc
    exact ⟨timeline, time, hfurthest, hmem, by simpa using hprotected⟩
  unfold gcFindCandidates at h
  split at h
  · cases h
  · dsimp only at h
    split at h
    · split at h
      · cases h
      · rename_i hfurthest
        exact .inl (hfiltered hfurthest (mem_of_mem_markUntil h))
    · rcases mem_append.mp h with h | h
      · split at h
        · cases h
        · rename_i hfurthest
          exact .inl (hfiltered hfurthest (mem_of_mem_markUntil h))
      · exact .inr (mem_of_mem_markUntil h)

theorem mem_findTemporalChunksFurthestFrom {timeline : TimelineName} {time : TimeInt}
    (h : c ∈ st.findTemporalChunksFurthestFrom timeline time) :
    (∃ id, st.physical id = some c) ∧ (c.timelines.lookup timeline).isSome := by
  obtain ⟨d, hd, rfl⟩ := mem_map.mp h
  obtain ⟨e, he, hed⟩ := mem_filterMap.mp ((mem_insertionSort _).mp hd)
  obtain ⟨tc, htc, hmap⟩ := Option.bind_eq_some_iff.mp hed
  obtain ⟨n, -, rfl⟩ := Option.map_eq_some_iff.mp hmap
  refine ⟨⟨e.1, mem_toList.mp ((mem_insertionSort _).mp he)⟩, ?_⟩
  rw [htc]
  rfl

theorem mem_chunksInPriorityOrder :
    c ∈ st.chunksInPriorityOrder options ↔
      (∃ id r, st.catalog.rowOrder r id ∧ st.physical id = some c ∧
        id ∉ st.findAllProtectedPhysicalChunkIds options.protectLatest) ∧
      c.isStatic = false ∧ options.isChunkProtected c = false := by
  unfold chunksInPriorityOrder
  simp only [mem_filter, mem_filterMap, mem_map, Bool.not_eq_true', and_assoc]
  refine and_congr ?_ Iff.rfl
  constructor
  · rintro ⟨id, ⟨p, hp, rfl⟩, hid, hc⟩
    exact ⟨(ofLex p).2, (ofLex p).1, hp, hc, by simpa using hid⟩
  · rintro ⟨id, r, hr, hc, hid⟩
    exact ⟨id, ⟨toLex (r, id), hr, rfl⟩, by simpa using hid, hc⟩

theorem gcFindCandidates_physical (hv : st.catalog.Sound) {clock : GcClock} {target : Nat}
    (h : c ∈ st.gcFindCandidates options clock target) :
    st.physical c.id = some c := by
  have hphys : ∃ id, st.physical id = some c := by
    rcases gcFindCandidates_cases h with ⟨timeline, time, -, hc, -⟩ | hc
    · exact (mem_findTemporalChunksFurthestFrom hc).1
    · obtain ⟨⟨id, -, -, hid, -⟩, -⟩ := mem_chunksInPriorityOrder.mp hc
      exact ⟨id, hid⟩
  obtain ⟨id, hid⟩ := hphys
  rw [hv.id_eq _ _ hid]
  exact hid

/-- The chunks a collection removes shallowly and deeply, in this order. -/
def gcPlan (st : ChunkStore) (options : GarbageCollectionOptions) (clock : GcClock) : List Chunk × List Chunk :=
  let total := (st.staticChunksStats + st.temporalPhysicalChunksStats).totalSizeBytes.toNat
  let chunks := st.gcFindCandidates options clock (options.target.targetBytesFromSize total)
  if options.performDeepDeletions then ([], chunks)
  else (chunks.filter fun c => st.isRootChunk c.id, chunks.filter fun c => !st.isRootChunk c.id)

theorem gc_eq (st : ChunkStore) (options : GarbageCollectionOptions) (clock : GcClock) :
    (st.gc options clock).1 =
      ((st.removeChunksShallow (st.gcPlan options clock).1 (some clock.sweepExhausted)
        .garbageCollection).1.removeChunksDeep (st.gcPlan options clock).2 .garbageCollection).1 := by
  unfold gc gcDropAtLeastNumBytes gcPlan
  cases options.performDeepDeletions <;> rfl

theorem gcPlan_removes (hv : st.catalog.Sound) (options : GarbageCollectionOptions) (clock : GcClock) :
    RemovesChunks (st.gcPlan options clock).1 st.catalog (st.removeChunksShallow (st.gcPlan options clock).1
      (some clock.sweepExhausted) .garbageCollection).1.catalog :=
  removeChunksShallow_removes hv _ _ _

theorem gc_recedes (st : ChunkStore) (options : GarbageCollectionOptions) (clock : GcClock) :
    Recedes st (st.gc options clock).1 := by
  exact (removeChunksShallow_recedes _ _ _ _).trans (removeChunksDeep_recedes _ _ _)

theorem mem_gcPlan {clock : GcClock} :
    c ∈ (st.gcPlan options clock).1 ∨ c ∈ (st.gcPlan options clock).2 ↔
      c ∈ st.gcFindCandidates options clock (options.target.targetBytesFromSize
        (st.staticChunksStats + st.temporalPhysicalChunksStats).totalSizeBytes.toNat) := by
  unfold gcPlan
  split
  · simp
  · simp only [mem_filter, ← and_or_left, Bool.not_eq_true', and_iff_left_iff_imp]
    intro _
    cases st.isRootChunk c.id <;> simp

theorem gcPlan_spec (hv : st.catalog.Sound) (options : GarbageCollectionOptions) (clock : GcClock) :
    (∀ c ∈ (st.gcPlan options clock).1, st.physical c.id = some c ∧ st.isRootChunk c.id = true) ∧
      ∀ c ∈ (st.gcPlan options clock).2, st.physical c.id = some c := by
  unfold gcPlan
  split
  · exact ⟨by simp, fun c hc => gcFindCandidates_physical hv hc⟩
  · refine ⟨fun c hc => ?_, fun c hc => gcFindCandidates_physical hv (mem_filter.mp hc).1⟩
    exact ⟨gcFindCandidates_physical hv (mem_filter.mp hc).1, (mem_filter.mp hc).2⟩

theorem physical_eq_of_removes {chunks : List Chunk} (hchunks : ∀ c ∈ chunks, st.physical c.id = some c)
    (h : Removes st.catalog st'.catalog) : ∀ c ∈ chunks, ∀ d, st'.physical c.id = some d → d = c := by
  intro c hc d hd
  have hback : st'.physical c.id = st.physical c.id :=
    h.isSome_of (Option.isSome_of_eq_some hd)
  rw [hback, hchunks c hc] at hd
  exact (Option.some.inj hd).symm

theorem gc_removes (hv : st.catalog.Sound) (options : GarbageCollectionOptions) (clock : GcClock) :
    Removes st.catalog (st.gc options clock).1.catalog ∧ Unranks st.catalog (st.gc options clock).1.catalog := by
  obtain ⟨hroots, hdeep⟩ := gcPlan_spec hv options clock
  have h₁ := gcPlan_removes hv options clock
  have h₂ := removeChunksDeep_removes (hv.removes h₁.removes) (st.gcPlan options clock).2
    .garbageCollection
  rw [gc_eq]
  refine ⟨h₁.removes.trans h₂.removes, (h₁.unranks fun c hc d hd => ?_).trans h₁.removes h₂.removes
    (h₂.unranks fun c hc d hd => ?_)⟩
  · rw [Option.some.inj (hd.symm.trans (hroots c hc).1)]
  · rw [physical_eq_of_removes hdeep h₁.removes c hc d hd]

/-! ## Manifests -/

theorem listEntry_lists (st : ChunkStore) (entity : EntityPath) (timeline : Timeline)
    (component : ComponentIdentifier) (id : ChunkId) (entry : DlrManifestTemporalMapEntry)
    (id' : ChunkId) (s : Slot) :
    (st.listEntry ((entity, timeline, component, id), entry)).ListedAt id' s ↔
      (id' = id ∧ EntrySlot entity timeline component entry.timeRange s) ∨ st.ListedAt id' s := by
  cases s with
  | component e tl co edge t =>
    simp only [ListedAt, listEntry, insertAll_listed, OwnedBy, mem_singleton, Prod.mk.injEq, EntrySlot]
    constructor
    · rintro (⟨⟨r, ⟨⟨rfl, rfl, rfl⟩, rfl⟩, ht⟩, rfl⟩ | h)
      · exact .inl ⟨rfl, rfl, rfl, rfl, ht⟩
      · exact .inr h
    · rintro (⟨rfl, rfl, rfl, rfl, ht⟩ | h)
      · exact .inl ⟨⟨_, ⟨⟨rfl, rfl, rfl⟩, rfl⟩, ht⟩, rfl⟩
      · exact .inr h
  | timeline e tl edge t =>
    simp only [ListedAt, listEntry, insertAll_listed, OwnedBy, mem_singleton, Prod.mk.injEq, EntrySlot]
    constructor
    · rintro (⟨⟨r, ⟨⟨rfl, rfl⟩, rfl⟩, ht⟩, rfl⟩ | h)
      · exact .inl ⟨rfl, rfl, rfl, ht⟩
      · exact .inr h
    · rintro (⟨rfl, rfl, rfl, ht⟩ | h)
      · exact .inl ⟨⟨_, ⟨⟨rfl, rfl⟩, rfl⟩, ht⟩, rfl⟩
      · exact .inr h

/-- What announcing chunks does to the catalog: more listings, nothing else. -/
structure Announces (L : ChunkId → Slot → Prop) (v w : Catalog) : Prop where
  chunks : w.chunks = v.chunks
  listed : ∀ id s, w.listed id s ↔ L id s ∨ v.listed id s
  row : w.rowOrder = v.rowOrder
  longest_le : ∀ key, v.longest key ≤ w.longest key

theorem foldl_listEntry_announces : ∀ (es : List ((EntityPath × Timeline × ComponentIdentifier × ChunkId) ×
    DlrManifestTemporalMapEntry)) (st : ChunkStore),
    Announces (fun id s => ∃ entity timeline component entry, ((entity, timeline, component, id), entry) ∈ es ∧
        EntrySlot entity timeline component entry.timeRange s)
      st.catalog (es.foldl listEntry st).catalog
  | [], st => ⟨rfl, by simp, rfl, fun _ => le_rfl⟩
  | ((entity, timeline, component, id), entry) :: es, st => by
    have ih := foldl_listEntry_announces es (st.listEntry ((entity, timeline, component, id), entry))
    refine ⟨ih.chunks, fun id' s => ?_, ih.row, fun key => ?_⟩
    · rw [foldl_cons, ih.listed]
      show _ ∨ (st.listEntry _).ListedAt id' s ↔ _
      rw [listEntry_lists]
      constructor
      · rintro (⟨e', tl', co', entry', hmem, hs⟩ | ⟨rfl, hs⟩ | h)
        · exact .inl ⟨e', tl', co', entry', mem_cons_of_mem _ hmem, hs⟩
        · exact .inl ⟨entity, timeline, component, entry, mem_cons_self, hs⟩
        · exact .inr h
      · rintro (⟨e', tl', co', entry', hmem, hs⟩ | h)
        · rcases mem_cons.mp hmem with heq | hmem
          · simp only [Prod.mk.injEq] at heq
            obtain ⟨⟨rfl, rfl, rfl, rfl⟩, rfl⟩ := heq
            exact .inr (.inl ⟨rfl, hs⟩)
          · exact .inl ⟨e', tl', co', entry', hmem, hs⟩
        · exact .inr (.inr h)
    · exact (le_maxLength_insertAll key _).1.trans (ih.longest_le key)

theorem foldl_announce_catalog (isStatic : Bool) : ∀ (ids : List ChunkId) (st : ChunkStore),
    (ids.foldl (announce isStatic) st).catalog = st.catalog
  | [], _ => rfl
  | id :: ids, st => foldl_announce_catalog isStatic ids (st.announce isStatic id)

theorem foldl_pointStatic_catalog : ∀ (es : List ((EntityPath × ComponentIdentifier) × ChunkId))
    (st : ChunkStore), (es.foldl pointStatic st).catalog = st.catalog
  | [], _ => rfl
  | e :: es, st => foldl_pointStatic_catalog es (st.pointStatic e)

theorem insertDlrManifest_announces (st : ChunkStore) (manifest : DlrManifest) :
    Announces manifest.ListsAt st.catalog (st.insertDlrManifest manifest).1.catalog := by
  have h := foldl_listEntry_announces (Assoc.toList manifest.temporalMap)
    (((Assoc.toList manifest.temporalMap).map fun e => e.1.2.2.2).foldl (announce false)
      ((Assoc.toList manifest.staticMap).foldl pointStatic
        ((Assoc.values manifest.staticMap).foldl (announce true) st)))
  rw [foldl_announce_catalog, foldl_pointStatic_catalog, foldl_announce_catalog] at h
  simp only [mem_toList] at h
  exact h

/-! ## Dropping an entity -/

variable {e : EntityPath} {id : ChunkId}

theorem mem_staticChunkIds : id ∈ st.staticChunkIds e ↔
    ∃ component, st.staticChunkIdsPerEntity.lookup (e, component) = some id := by
  have hfold : ∀ (es : List ((EntityPath × ComponentIdentifier) × ChunkId)) (ids : OrdSet ChunkId),
      id ∈ es.foldl (fun ids entry => if entry.1.1 = e then ids.insert entry.2 else ids) ids ↔
        id ∈ ids ∨ ∃ component, ((e, component), id) ∈ es := by
    intro es
    induction es with
    | nil => simp
    | cons entry es ih =>
      intro ids
      obtain ⟨⟨e', component⟩, id'⟩ := entry
      rw [foldl_cons, ih]
      simp only [mem_cons, Prod.mk.injEq, exists_or]
      by_cases he : e' = e
      · subst he
        simp only [if_true, mem_insert, true_and, exists_and_right]
        tauto
      · simp [he, Ne.symm he]
  unfold staticChunkIds
  rw [hfold]
  simp [not_mem_empty, mem_toList]

theorem mem_temporalChunkIds : id ∈ st.temporalChunkIds e ↔
    ∃ timeline t, st.ListedAt id (.timeline e timeline .start t) := by
  have hinner : ∀ (ps : List TimeAndId) (ids : OrdSet ChunkId),
      id ∈ ps.foldl (fun ids p => ids.insert (ofLex p).2) ids ↔ id ∈ ids ∨ ∃ t, toLex (t, id) ∈ ps := by
    intro ps
    induction ps with
    | nil => simp
    | cons p ps ih =>
      intro ids
      rw [foldl_cons, ih, mem_insert]
      simp only [mem_cons, exists_or]
      have hp : (∃ t, (toLex (t, id) : TimeAndId) = p) ↔ id = (ofLex p).2 := by
        constructor
        · rintro ⟨t, rfl⟩
          rfl
        · rintro rfl
          exact ⟨(ofLex p).1, rfl⟩
      tauto
  have hfold : ∀ (es : List ((EntityPath × TimelineName) × ChunkIdSetPerTime)) (ids : OrdSet ChunkId),
      id ∈ es.foldl (fun ids entry => if entry.1.1 = e then
        entry.2.perStartTime.elems.foldl (fun ids p => ids.insert (ofLex p).2) ids else ids) ids ↔
        id ∈ ids ∨ ∃ timeline s, ((e, timeline), s) ∈ es ∧ ∃ t, toLex (t, id) ∈ s.perStartTime.elems := by
    intro es
    induction es with
    | nil => simp
    | cons entry es ih =>
      intro ids
      obtain ⟨⟨e', timeline⟩, s⟩ := entry
      rw [foldl_cons, ih]
      simp only [mem_cons, Prod.mk.injEq]
      by_cases he : e' = e
      · subst he
        rw [if_pos rfl, hinner]
        constructor
        · rintro ((h | h) | ⟨tl, s', hmem, h⟩)
          · exact .inl h
          · exact .inr ⟨timeline, s, .inl ⟨⟨rfl, rfl⟩, rfl⟩, h⟩
          · exact .inr ⟨tl, s', .inr hmem, h⟩
        · rintro (h | ⟨tl, s', ⟨⟨-, rfl⟩, rfl⟩ | hmem, h⟩)
          · exact .inl (.inl h)
          · exact .inl (.inr h)
          · exact .inr ⟨tl, s', hmem, h⟩
      · simp [he, Ne.symm he]
  unfold temporalChunkIds
  rw [hfold]
  simp only [not_mem_empty, false_or, mem_toList]
  constructor
  · rintro ⟨tl, s, hs, t, ht⟩
    exact ⟨tl, t, s, hs, ht⟩
  · rintro ⟨tl, t, s, hs, ht⟩
    exact ⟨tl, s, hs, t, ht⟩

theorem mem_temporalChunkIds_of_listed (hstatic : c.isStatic = false)
    (h : ∀ s, c.OwnSlot s → st.ListedAt id s) : id ∈ st.temporalChunkIds c.entityPath := by
  obtain ⟨name, hname⟩ := Chunk.isStatic_eq_false_iff.mp hstatic
  obtain ⟨tc, htc⟩ := Option.isSome_iff_exists.mp hname
  exact mem_temporalChunkIds.mpr
    ⟨name, tc.timeRange.min, h (.timeline c.entityPath name .start tc.timeRange.min) ⟨rfl, tc, htc, rfl⟩⟩

theorem removeMinRowIds_eq (ids : List ChunkId) (st : ChunkStore) :
    ∃ ranks, st.removeMinRowIds ids = { st with physicalChunkIdsPerMinRowId := ranks } := by
  refine foldlRecOn (motive := fun st' : ChunkStore =>
    ∃ ranks, st' = { st with physicalChunkIdsPerMinRowId := ranks }) _ _ ⟨_, rfl⟩ fun st' h id _ => ?_
  obtain ⟨ranks, rfl⟩ := h
  split
  · unfold removeMinRowId
    split <;> exact ⟨_, rfl⟩
  · exact ⟨ranks, rfl⟩

theorem removeMinRowIds_catalog : ∀ (ids : List ChunkId) (st : ChunkStore),
    (st.removeMinRowIds ids).catalog = { st.catalog with
      rowOrder := fun r id => st.catalog.rowOrder r id ∧
        ¬ (id ∈ ids ∧ ∃ c, st.physical id = some c ∧ c.minRowId = some r) }
  | [], st => by simp [removeMinRowIds]
  | id :: ids, st => by
    have hstep : ∃ st' : ChunkStore, st.removeMinRowIds (id :: ids) = st'.removeMinRowIds ids ∧
        st'.physical = st.physical ∧ st'.catalog = { st.catalog with
          rowOrder := fun r id' => st.catalog.rowOrder r id' ∧
            ¬ (id' = id ∧ ∃ c, st.physical id = some c ∧ c.minRowId = some r) } := by
      unfold removeMinRowIds
      rw [foldl_cons]
      cases hphys : st.physical id with
      | none => exact ⟨st, rfl, rfl, by simp⟩
      | some c =>
        refine ⟨st.removeMinRowId c id, rfl, ?_, ?_⟩
        · exact congrArg chunks (removeMinRowId_catalog st c id)
        · rw [removeMinRowId_catalog]
          unfold unrank
          simp only [Option.some.injEq, exists_eq_left', and_comm]
    obtain ⟨st', hrest, hphys, hcat⟩ := hstep
    rw [hrest, removeMinRowIds_catalog ids st', hphys, hcat]
    refine Catalog.ext rfl rfl ?_ rfl
    funext r id'
    apply propext
    simp only [mem_cons]
    constructor
    · rintro ⟨⟨h1, h2⟩, h3⟩
      refine ⟨h1, ?_⟩
      rintro ⟨rfl | hmem, hc⟩
      · exact h2 ⟨rfl, hc⟩
      · exact h3 ⟨hmem, hc⟩
    · rintro ⟨h1, h2⟩
      refine ⟨⟨h1, ?_⟩, fun h3 => h2 ⟨.inr h3.1, h3.2⟩⟩
      rintro ⟨rfl, hc⟩
      exact h2 ⟨.inl rfl, hc⟩

theorem dropPhysical_catalog (isStatic : Bool) : ∀ (ids : List ChunkId) (st : ChunkStore),
    (dropPhysical isStatic st ids).1.catalog = { st.catalog with
      chunks := fun id => if id ∈ ids then none else st.physical id }
  | [], st => by
    refine Catalog.ext ?_ rfl rfl rfl
    funext id
    simp only [dropPhysical, not_mem_nil, if_false]
    rfl
  | id :: ids, st => by
    unfold dropPhysical
    cases hphys : st.physical id with
    | none =>
      dsimp only
      rw [dropPhysical_catalog isStatic ids st]
      refine Catalog.ext ?_ rfl rfl rfl
      funext id'
      by_cases hid : id' = id
      · simp [hid, hphys]
      · simp [hid]
    | some c =>
      dsimp only
      rw [dropPhysical_catalog isStatic ids]
      refine Catalog.ext ?_ rfl rfl rfl
      funext id'
      show (if id' ∈ ids then none else (AList.erase id st.physicalChunksPerChunkId).lookup id') = _
      rw [lookup_erase_ite]
      by_cases hid : id' = id
      · simp [hid]
      · simp only [hid, if_false, mem_cons, false_or]
        rfl

theorem dropPhysical_eq (isStatic : Bool) : ∀ (ids : List ChunkId) (st : ChunkStore), ∃ physical static temporal,
    (dropPhysical isStatic st ids).1 = { st with
      physicalChunksPerChunkId := physical
      staticChunksStats := static
      temporalPhysicalChunksStats := temporal }
  | [], _ => ⟨_, _, _, rfl⟩
  | id :: ids, st => by
    unfold dropPhysical
    split
    · exact dropPhysical_eq isStatic ids st
    · obtain ⟨_, _, _, h⟩ := dropPhysical_eq isStatic ids _
      exact ⟨_, _, _, h⟩

theorem dropEntityPath_eq (st : ChunkStore) (e : EntityPath) : ∃ physical ranks static temporal,
    (st.dropEntityPath e).1 = { (st.dropStaticMap e).dropTemporalMaps e with
      physicalChunksPerChunkId := physical
      physicalChunkIdsPerMinRowId := ranks
      staticChunksStats := static
      temporalPhysicalChunksStats := temporal } := by
  unfold dropEntityPath
  dsimp only
  obtain ⟨_, h₁⟩ := removeMinRowIds_eq (st.staticChunkIds e).elems (st.dropStaticMap e)
  rw [h₁]
  generalize hst₂ : removeMinRowIds (dropTemporalMaps _ e) (st.temporalChunkIds e).elems = st₂
  obtain ⟨_, h₂⟩ := removeMinRowIds_eq (st.temporalChunkIds e).elems (dropTemporalMaps _ e)
  generalize hst₃ : (dropPhysical true st₂ (st.staticChunkIds e).elems).1 = st₃
  obtain ⟨_, _, _, h₃⟩ := dropPhysical_eq true (st.staticChunkIds e).elems st₂
  obtain ⟨_, _, _, h₄⟩ := dropPhysical_eq false (st.temporalChunkIds e).elems st₃
  rw [h₄, ← hst₃, h₃, ← hst₂, h₂]
  exact ⟨_, _, _, _, rfl⟩

theorem lookup_retainKeys {K V : Type} [DecidableEq K] (m : Assoc K V) (keep : K → Bool) (k : K) :
    (retainKeys m keep).lookup k = if keep k then m.lookup k else none := by
  unfold retainKeys
  rw [lookup_filterMap]
  cases hk : keep k <;> cases m.lookup k <;> simp

theorem dropTemporalMaps_listed (st : ChunkStore) (e : EntityPath) (id : ChunkId) (s : Slot) :
    (st.dropTemporalMaps e).ListedAt id s ↔ s.entity ≠ e ∧ st.ListedAt id s := by
  cases s with
  | component e' tl co edge t | timeline e' tl edge t =>
    simp only [ListedAt, Listed, dropTemporalMaps, lookup_retainKeys, Slot.entity]
    by_cases he : e' = e <;> simp [he]

theorem dropTemporalMaps_longest (st : ChunkStore) {key : EntityPath × TimelineName × ComponentIdentifier}
    (h : key.1 ≠ e) :
    (st.dropTemporalMaps e).catalog.longest key = st.catalog.longest key := by
  show maxLength _ key = maxLength _ key
  unfold maxLength dropTemporalMaps
  rw [lookup_retainKeys]
  simp [h]

/-- What dropping an entity does to the catalog. -/
structure Drops (st : ChunkStore) (e : EntityPath) (w : Catalog) : Prop where
  chunks : ∀ id, w.chunks id =
    if id ∈ st.staticChunkIds e ∨ id ∈ st.temporalChunkIds e then none else st.physical id
  listed : ∀ id s, w.listed id s ↔ s.entity ≠ e ∧ st.ListedAt id s
  row : ∀ r id, w.rowOrder r id ↔ st.catalog.rowOrder r id ∧
    ¬ ((id ∈ st.staticChunkIds e ∨ id ∈ st.temporalChunkIds e) ∧ ∃ c, st.physical id = some c ∧ c.minRowId = some r)
  longest : ∀ key : EntityPath × TimelineName × ComponentIdentifier, key.1 ≠ e →
    w.longest key = st.catalog.longest key

theorem Drops.physical_of {w : Catalog} (h : Drops st e w) (hc : w.chunks id = some c) :
    st.physical id = some c ∧ ¬ (id ∈ st.staticChunkIds e ∨ id ∈ st.temporalChunkIds e) := by
  rw [h.chunks] at hc
  split at hc
  · cases hc
  · exact ⟨hc, ‹_›⟩

theorem dropEntityPath_drops (st : ChunkStore) (e : EntityPath) : Drops st e (st.dropEntityPath e).1.catalog := by
  -- the states the function passes through
  let st₁ := (st.dropStaticMap e).removeMinRowIds (st.staticChunkIds e).elems
  let st₂ := (st₁.dropTemporalMaps e).removeMinRowIds (st.temporalChunkIds e).elems
  let st₃ := (dropPhysical true st₂ (st.staticChunkIds e).elems).1
  have h₁ : st₁.catalog = _ := removeMinRowIds_catalog _ (st.dropStaticMap e)
  have h₂ : st₂.catalog = _ := removeMinRowIds_catalog _ (st₁.dropTemporalMaps e)
  have h₃ : st₃.catalog = _ := dropPhysical_catalog true _ st₂
  have h₄ : (st.dropEntityPath e).1.catalog = _ := dropPhysical_catalog false _ st₃
  have hphys₁ : st₁.physical = st.physical := congrArg chunks h₁
  have hphys₂ : st₂.physical = st.physical := (congrArg chunks h₂).trans hphys₁
  have hphys₃ : ∀ id, st₃.physical id = if id ∈ st.staticChunkIds e then none else st.physical id :=
    fun id => (congrFun (congrArg chunks h₃) id).trans (by rw [hphys₂]; rfl)
  have hlist₁ : ∀ id s, st₁.ListedAt id s ↔ st.ListedAt id s := fun id s =>
    Eq.to_iff (congrFun (congrFun (congrArg listed h₁) id) s)
  rw [h₄]
  refine ⟨fun id => ?_, fun id s => ?_, fun r id => ?_, fun key hkey => ?_⟩
  · show (if id ∈ (st.temporalChunkIds e).elems then none else st₃.physical id) = _
    rw [hphys₃]
    by_cases hT : id ∈ st.temporalChunkIds e
    · rw [if_pos (mem_def.mp hT), if_pos (.inr hT)]
    · rw [if_neg (mt mem_def.mpr hT)]
      simp [hT]
  · show st₃.ListedAt id s ↔ _
    rw [← hlist₁, ← dropTemporalMaps_listed]
    exact Eq.to_iff ((congrFun (congrFun (congrArg listed h₃) id) s).trans
      (congrFun (congrFun (congrArg listed h₂) id) s))
  · have hrow : st₃.catalog.rowOrder r id ↔ (st.catalog.rowOrder r id ∧
        ¬ (id ∈ st.staticChunkIds e ∧ ∃ c, st.physical id = some c ∧ c.minRowId = some r)) ∧
        ¬ (id ∈ st.temporalChunkIds e ∧ ∃ c, st.physical id = some c ∧ c.minRowId = some r) := by
      rw [h₃, h₂]
      show st₁.catalog.rowOrder r id ∧ ¬ (_ ∧ ∃ c, st₁.physical id = some c ∧ _) ↔ _
      rw [hphys₁, h₁]
      rfl
    show st₃.catalog.rowOrder r id ↔ _
    rw [hrow, and_assoc, ← not_or, ← or_and_right]
  · show st₃.catalog.longest key = _
    rw [h₃, h₂]
    show (st₁.dropTemporalMaps e).catalog.longest key = _
    rw [dropTemporalMaps_longest st₁ hkey, h₁]
    rfl

/-! ## Every reachable store is sound -/

theorem new_catalog_chunks (config : ChunkSplitConfig) (id : ChunkId) :
    (ChunkStore.new config).catalog.chunks id = none := rfl

theorem not_listedAt_new (config : ChunkSplitConfig) (id : ChunkId) (s : Slot) :
    ¬ (ChunkStore.new config).ListedAt id s := by
  cases s <;> rintro ⟨_, h, -⟩ <;> simp [ChunkStore.new] at h

theorem insertChunk_sound {env : Env} {c : ValidChunk} (hv : st.catalog.Sound)
    (hfresh : Fresh env st c.toChunk) : (insertChunk env st c.toChunk).1.catalog.Sound := by
  refine insertChunk_elim hv fun hacc => ?_
  obtain ⟨cs, v, h⟩ := insertChunk_refines hv c.wf hfresh hacc
  exact (hv.removes h.removes).addsAll h.adds
    (h.stored.sound (sound_of_earlyReturn c.wf hacc.2).1).1

theorem earlyReturn_error_iff : (∃ e, st.earlyReturn c = some (.error e)) ↔
    c.isEmpty = false ∧ c.components.entries.isEmpty = false ∧ ¬ st.IsPhysical c.id ∧ c.isSorted = false := by
  unfold earlyReturn
  cases c.isEmpty with
  | true => simp
  | false =>
    cases c.components.entries.isEmpty with
    | true => simp
    | false =>
      by_cases hphys : st.IsPhysical c.id
      · simp [hphys]
      · cases c.isSorted with
        | false => simp [hphys]
        | true => cases st.leakyChainIsLive c.id <;> simp [hphys]

theorem insertChunk_error_iff {env : Env} {c : ValidChunk} (hv : st.catalog.Sound)
    (hfresh : Fresh env st c.toChunk) : (∃ e, (insertChunk env st c.toChunk).2 = .error e) ↔
      st.isRootChunk c.id = true ∧ ∃ e, st.earlyReturn c.toChunk = some (.error e) := by
  by_cases hacc : st.Accepts c.toChunk
  · obtain ⟨-, diffs, hok⟩ := insertChunk_cases hv c.wf hfresh hacc
    simp [hok, hacc.2]
  · unfold insertChunk
    cases hroot : st.isRootChunk c.id with
    | false => simp
    | true =>
      cases hearly : st.earlyReturn c.toChunk with
      | none => exact absurd ⟨hroot, hearly⟩ hacc
      | some result => cases result <;> simp [insertChunkImpl, hearly, Except.map]

end ChunkStore

theorem Op.run_sound {st : ChunkStore} {op : Op} (hv : st.catalog.Sound) (hop : op.Possible st) :
    (op.run st).catalog.Sound := by
  cases op with
  | insertDlrManifest manifest =>
    have h := insertDlrManifest_announces st manifest
    exact ⟨fun id c hc => hv.id_eq id c (h.chunks ▸ hc), fun id c hc => hv.chunk id c (h.chunks ▸ hc)⟩
  | insertChunk env c => exact insertChunk_sound hv hop
  | gc options clock => exact hv.removes (gc_removes hv options clock).1
  | removeChunksShallow chunks budget reason =>
    exact hv.removes (removeChunksShallow_removes hv _ budget reason).removes
  | removeChunksDeep chunks reason =>
    exact hv.removes (removeChunksDeep_removes hv _ reason).removes
  | dropEntityPath e =>
    have h := dropEntityPath_drops st e
    exact ⟨fun id c hc => hv.id_eq id c (h.physical_of hc).1, fun id c hc => hv.chunk id c (h.physical_of hc).1⟩

/-- What is kept where chunks are removed, where one is added, where a manifest is announced and where
an entity is dropped, every operation keeps. -/
theorem Op.run_keeps {Q : Catalog → Prop} {st : ChunkStore} {op : Op} (h : Q st.catalog) (hv : st.catalog.Sound)
    (hop : op.Possible st) (hremoves : ∀ {v w : Catalog}, Q v → Removes v w → Q w)
    (hadds : ∀ {c : Chunk} {v w : Catalog}, Q v → Adds c v w → Q w)
    (hannounced : ∀ manifest, Q (st.insertDlrManifest manifest).1.catalog)
    (hdropped : ∀ e, Q (st.dropEntityPath e).1.catalog) : Q (op.run st).catalog := by
  cases op with
  | insertDlrManifest manifest => exact hannounced manifest
  | insertChunk env c =>
    show Q (ChunkStore.insertChunk env st c.toChunk).1.catalog
    refine insertChunk_elim h fun hacc => ?_
    obtain ⟨cs, v, hrefined⟩ := insertChunk_refines hv c.wf hop hacc
    exact hrefined.adds.keeps hadds (hremoves h hrefined.removes)
  | gc options clock => exact hremoves h (gc_removes hv options clock).1
  | removeChunksShallow chunks budget reason =>
    exact hremoves h (removeChunksShallow_removes hv _ budget reason).removes
  | removeChunksDeep chunks reason => exact hremoves h (removeChunksDeep_removes hv _ reason).removes
  | dropEntityPath e => exact hdropped e

theorem ChunkStore.Reachable.sound {allowed : ChunkStore → Op → Prop} {st : ChunkStore}
    (h : Reachable allowed st) : st.catalog.Sound := by
  induction h with
  | new config =>
    refine ⟨fun id c hc => ?_, fun id c hc => ?_⟩ <;>
      simp [new_catalog_chunks] at hc
  | step _ hop _ ih => exact Op.run_sound ih hop

/-! ## Failed insertions -/

namespace ChunkStore

variable {st : ChunkStore}

/-- A call that fails leaves the whole store as it was. -/
theorem insertChunk_error_unchanged (hst : Reachable (fun _ _ => True) st) {env : Env} {c : ValidChunk}
    (hfresh : Fresh env st c.toChunk) {e : ChunkStoreError}
    (herror : (insertChunk env st c.toChunk).2 = .error e) : (insertChunk env st c.toChunk).1 = st := by
  obtain ⟨-, e', hearly⟩ := (insertChunk_error_iff hst.sound hfresh).mp ⟨e, herror⟩
  refine insertChunk_of_not_accepts fun hacc => ?_
  rw [hacc.2] at hearly
  cases hearly

def oneRowChunk : ValidChunk where
  toChunk := .ofColumns 1 ⟨["robot"]⟩ 0 [1] [(⟨"frame"⟩, [0].map I64.sat)] [(⟨"position"⟩, [some []])]
  sane := rfl

def unsortedChunk : ValidChunk where
  toChunk := .ofColumns 2 ⟨["robot"]⟩ 0 [3, 2] [(⟨"frame"⟩, [1, 2].map I64.sat)]
    [(⟨"position"⟩, [some [], some []])]
  sane := rfl

def oneRowStore : ChunkStore := (Op.insertChunk (.countingFrom 100) oneRowChunk).run (.new ⟨0, 0, 0⟩)

def frameChunk (id : ChunkId) (entityPath : EntityPath) (rowIds : List RowId) (frames : List Int) : Chunk :=
  .ofColumns id entityPath 0 rowIds [(⟨"frame"⟩, frames.map I64.sat)] [(⟨"position"⟩, rowIds.map fun _ => some [])]

def aroundChunk : ValidChunk := ⟨frameChunk 1 ⟨["robot"]⟩ [1, 2] [0, 20], rfl⟩

def betweenChunk : ValidChunk := ⟨frameChunk 2 ⟨["robot"]⟩ [3, 4, 5] [14, 2, 30], rfl⟩

def scatteredStore : ChunkStore :=
  (Op.insertChunk (.countingFrom 100) ⟨frameChunk 4 ⟨["arm"]⟩ [8] [40], rfl⟩).run
    ((Op.insertChunk (.countingFrom 100) ⟨frameChunk 3 ⟨["arm"]⟩ [6, 7] [7, 8], rfl⟩).run
      ((Op.insertChunk (.countingFrom 100) betweenChunk).run
        ((Op.insertChunk (.countingFrom 100) aroundChunk).run (.new ⟨0, 0, 0⟩))))

theorem scatteredStore_reachable : Reachable (fun _ _ => True) scatteredStore := by
  refine .step (.step (.step (.step (.new ⟨0, 0, 0⟩) ?_ trivial) ?_ trivial) ?_ trivial) ?_ trivial <;>
    exact fresh_countingFrom

/-- It refuses the second chunk. -/
theorem insertChunk_error_unchanged_unsorted :
    (insertChunk (.countingFrom 100) oneRowStore unsortedChunk.toChunk).1 = oneRowStore :=
  @insertChunk_error_unchanged oneRowStore
    (.step (.new _) fresh_countingFrom trivial) _ unsortedChunk
    fresh_countingFrom .unsortedChunk rfl

end ChunkStore

end Dalaran
