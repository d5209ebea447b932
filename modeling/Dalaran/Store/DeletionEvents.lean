import Dalaran.Store.GcProtection

/-
  The events of removals (`gc.rs`, `drop_entity_path` in `writes.rs`).

  `Catalog.Names` says what a report is worth: it names the chunks that were
  physical and are no more. A shallow removal reports each of them once. A deep
  removal reports what its walk through the virtual indices finds and adds what the
  shallow one found besides; a chunk it is given twice can be reported twice.

  A collection hands each of the two removals what it marked. Its events name
  the chunks it evicted, and among them every id it made the store forget; an
  evicted root is named although the virtual indices keep it.

  Correspondence (Rust ↔ Lean):
    the diffs of `remove_chunks_shallow`, `remove_chunks_deep` ↔ `removeShallowLoop_names`,
      `removeChunksDeep_names`
    the diffs of `gc` ↔ `CollectionEvents`
    the result of `remove_chunk_from_virtual_indices` ↔ `removeChunkFromVirtualIndices_reports`
-/

namespace Dalaran

open List

/-! ## The report of an index -/

namespace TimeIndex

variable {K : Type} [DecidableEq K]

theorem removeOne_of_listed {index : TimeIndex K} {key : K} {r : AbsoluteTimeRange} {id : ChunkId}
    {edge : Edge} (h : Listed index key edge (r.edge edge) id) : (removeOne index key r id).2 = true := by
  obtain ⟨s, hs, hmem⟩ := h
  have hoccupied : ∀ {t : TimeInt} {ids : OrdSet TimeAndId}, toLex (t, id) ∈ ids →
      ChunkIdSetPerTime.occupied ids t = true := by
    intro t ids hids
    exact any_eq_true.mpr ⟨toLex (t, id), hids, by simp⟩
  unfold removeOne
  rw [hs]
  apply (Bool.or_eq_true _ _).mpr
  cases edge with
  | start => exact .inl (hoccupied hmem)
  | stop => exact .inr (hoccupied hmem)

theorem removeAll_of_listed {ranges : List (K × AbsoluteTimeRange)} {index : TimeIndex K} {key : K}
    {edge : Edge} {t : TimeInt} {id : ChunkId} (howned : OwnedBy ranges key edge t)
    (h : Listed index key edge t id) : (removeAll index ranges id).2 = true := by
  have hkeeps : ∀ (ranges : List (K × AbsoluteTimeRange)) (acc : TimeIndex K × Bool), acc.2 = true →
      (ranges.foldl (fun acc e =>
        ((removeOne acc.1 e.1 e.2 id).1, acc.2 || (removeOne acc.1 e.1 e.2 id).2)) acc).2 = true := by
    intro ranges
    induction ranges with
    | nil => exact fun acc h => h
    | cons e ranges ih =>
      intro acc hacc
      apply ih
      simp [hacc]
  have hfold : ∀ (ranges : List (K × AbsoluteTimeRange)) (acc : TimeIndex K × Bool),
      OwnedBy ranges key edge t → Listed acc.1 key edge t id → (ranges.foldl (fun acc e =>
        ((removeOne acc.1 e.1 e.2 id).1, acc.2 || (removeOne acc.1 e.1 e.2 id).2)) acc).2 = true := by
    intro ranges
    induction ranges with
    | nil =>
      intro acc ⟨r, hr, _⟩
      cases hr
    | cons e ranges ih =>
      intro acc ⟨r, hr, ht⟩ hlisted
      rw [foldl_cons]
      -- either this key is the listing's, or the listing survives this key
      by_cases hthis : key = e.1 ∧ t = e.2.edge edge
      · apply hkeeps
        rw [hthis.1, hthis.2] at hlisted
        simp [removeOne_of_listed hlisted]
      · refine ih _ ⟨r, (mem_cons.mp hr).resolve_left fun heq => ?_, ht⟩ ?_
        · exact hthis ⟨congrArg Prod.fst heq, ht.trans (congrArg (fun e => e.2.edge edge) heq)⟩
        · exact removeOne_listed.mpr ⟨fun h' => hthis ⟨h'.1, h'.2.1⟩, hlisted⟩
  exact hfold ranges (index, false) howned h

end TimeIndex

/-! ## Reports -/

namespace Catalog

variable {v w x : Catalog} {cs ds : List Chunk}

def Names (cs : List Chunk) (v w : Catalog) : Prop :=
  ∀ c, c ∈ cs ↔ v.chunks c.id = some c ∧ w.chunks c.id = none

theorem Names.nil (h : w.chunks = v.chunks) : Names [] v w := by
  intro c
  rw [h]
  constructor
  · intro hc
    cases hc
  · intro ⟨hc, hgone⟩
    rw [hc] at hgone
    cases hgone

theorem Names.append (h₁ : Names cs v w) (h₂ : Names ds w x) (hr : Removes v w) (hr' : Removes w x) :
    Names (cs ++ ds) v x := by
  intro c
  rw [mem_append, h₁ c, h₂ c]
  constructor
  · intro h
    rcases h with ⟨hv, hw⟩ | ⟨hw, hx⟩
    · exact ⟨hv, hr'.absent hw⟩
    · exact ⟨((hr.isSome_of (Option.isSome_of_eq_some hw)).symm.trans hw), hx⟩
  · intro ⟨hv, hx⟩
    rcases hr.chunks c.id with hw | hw
    · exact .inr ⟨hw.trans hv, hx⟩
    · exact .inl ⟨hv, hw⟩

theorem Names.nodup_append (h₁ : Names cs v w) (h₂ : Names ds w x) (hcs : cs.Nodup) (hds : ds.Nodup) :
    (cs ++ ds).Nodup := by
  refine nodup_append'.mpr ⟨hcs, hds, fun c hc hd => ?_⟩
  have hgone := ((h₁ c).mp hc).2
  rw [((h₂ c).mp hd).1] at hgone
  cases hgone

end Catalog

namespace ChunkStore

open Catalog

variable {st : ChunkStore} {c : Chunk} {reason : ChunkDeletionReason}

/-! ## The virtual indices -/

theorem removeChunkFromVirtualIndices_reports (st : ChunkStore) (c : Chunk) :
    ((∃ s, c.OwnSlot s ∧ st.ListedAt c.id s) → (st.removeChunkFromVirtualIndices c).2 = true) ∧
      ((st.removeChunkFromVirtualIndices c).2 = false →
        (st.removeChunkFromVirtualIndices c).1.catalog = st.catalog) := by
  have hreports : ∀ s, c.OwnSlot s → st.ListedAt c.id s → (st.removeChunkFromVirtualIndices c).2 = true := by
    intro s hs hlisted
    apply (Bool.or_eq_true _ _).mpr
    cases s with
    | component e timeline component edge t =>
      exact .inl (TimeIndex.removeAll_of_listed (Chunk.ownedBy_componentRanges.mpr hs) hlisted)
    | timeline e timeline edge t =>
      exact .inr (TimeIndex.removeAll_of_listed (Chunk.ownedBy_timelineRanges.mpr hs) hlisted)
  refine ⟨fun ⟨s, hs, hlisted⟩ => hreports s hs hlisted, fun hfalse => ?_⟩
  rw [removeChunkFromVirtualIndices_catalog]
  refine Catalog.ext rfl ?_ rfl rfl
  funext id s
  apply propext
  refine and_iff_left_of_imp fun hlisted ⟨hid, hs⟩ => ?_
  rw [hid] at hlisted
  rw [hreports s hs hlisted] at hfalse
  cases hfalse

/-! ## Shallow removals -/

theorem removeChunkShallow_names (hv : st.catalog.Sound) (c : Chunk) :
    (st.removeChunkShallow c).2 = st.physical c.id ∧
      Names (st.removeChunkShallow c).2.toList st.catalog (st.removeChunkShallow c).1.catalog := by
  have hphys : (st.removeMinRowId c c.id).physical c.id = st.physical c.id :=
    congrFun (congrArg Catalog.chunks (removeMinRowId_catalog st c c.id)) c.id
  have hreport : (st.removeChunkShallow c).2 = st.physical c.id := by
    unfold removeChunkShallow
    dsimp only
    rw [hphys]
    cases st.physical c.id <;> rfl
  refine ⟨hreport, fun d => ?_⟩
  have hspares := (removeChunkShallow_removes hv (mem_singleton_self c)).spares
  have habsent : (st.removeChunkShallow c).1.catalog.chunks c.id = none := removeChunkShallow_absent st c
  rw [hreport, Option.mem_toList]
  constructor
  · intro hd
    have hid : d.id = c.id := hv.id_eq _ _ hd
    rw [hid]
    exact ⟨hd, habsent⟩
  · intro ⟨hd, hgone⟩
    by_cases hid : d.id = c.id
    · rw [← hid]
      exact hd
    · have hsame := (hspares d.id fun ⟨c', hc', heq⟩ => hid (heq.symm.trans
        (congrArg Chunk.id (mem_singleton.mp hc')))).1
      rw [hsame, hd] at hgone
      cases hgone

abbrev reported (result : ChunkStore × List ChunkStoreDiffDeletion) : List Chunk :=
  result.2.map (·.chunk)

theorem removeShallowLoop_names {budget : Option (Nat → Bool)} : ∀ {chunks : List Chunk} {n : Nat}
    {st : ChunkStore}, st.catalog.Sound →
      Names (reported (removeShallowLoop budget reason n st chunks)) st.catalog
          (removeShallowLoop budget reason n st chunks).1.catalog ∧
        (reported (removeShallowLoop budget reason n st chunks)).Nodup
  | [], _, st, _ => ⟨.nil rfl, nodup_nil⟩
  | c :: chunks, n, st, hv => by
    have hnames := (removeChunkShallow_names hv c).2
    have hremoves := (removeChunkShallow_removes hv (mem_singleton_self c)).removes
    have hsound := hv.removes hremoves
    have hrest : ∀ m, Removes (st.removeChunkShallow c).1.catalog
        (removeShallowLoop budget reason m (st.removeChunkShallow c).1 chunks).1.catalog := fun m =>
      removeShallowLoop_induct
        (I := fun st' => Removes (st.removeChunkShallow c).1.catalog st'.catalog)
        (fun _ _ hd h => h.trans (removeChunkShallow_removes (hsound.removes h) hd).removes) (.refl _)
    rw [removeShallowLoop]
    split
    · rename_i hround
      obtain ⟨ih, ihnodup⟩ := @removeShallowLoop_names budget chunks n _ hsound
      have h := hnames.append ih hremoves (hrest n)
      rw [hround] at h ihnodup
      exact ⟨h, ihnodup⟩
    · rename_i removed hround
      rw [hround] at hnames
      split
      · exact ⟨hnames, nodup_singleton _⟩
      · obtain ⟨ih, ihnodup⟩ := @removeShallowLoop_names budget chunks (n + 1) _ hsound
        have h := (removeChunkShallow_names hv c).2.append ih hremoves (hrest (n + 1))
        have hnodup := (removeChunkShallow_names hv c).2.nodup_append ih (by simp [hround]) ihnodup
        rw [hround] at h hnodup
        exact ⟨h, hnodup⟩

theorem removeShallowLoop_reason {budget : Option (Nat → Bool)} : ∀ {chunks : List Chunk} {n : Nat}
    {st : ChunkStore}, ∀ del ∈ (removeShallowLoop budget reason n st chunks).2, del.reason = reason
  | [], _, _, del, hdel => by cases hdel
  | c :: chunks, n, st, del, hdel => by
    rw [removeShallowLoop] at hdel
    split at hdel
    · exact removeShallowLoop_reason del hdel
    · split at hdel
      · rw [mem_singleton.mp hdel]
      · rcases mem_cons.mp hdel with rfl | hdel
        · rfl
        · exact removeShallowLoop_reason del hdel

theorem removeShallowLoop_sublist {budget : Option (Nat → Bool)} : ∀ {chunks : List Chunk} {n : Nat}
    {st : ChunkStore}, st.catalog.Sound → (∀ c ∈ chunks, ∀ d, st.physical c.id = some d → d = c) →
      (reported (removeShallowLoop budget reason n st chunks)).Sublist chunks
  | [], _, _, _, _ => .slnil
  | c :: chunks, n, st, hv, hchunks => by
    have hreport := (removeChunkShallow_names hv c).1
    have hremoves := (removeChunkShallow_removes hv (mem_singleton_self c)).removes
    have htail : ∀ d ∈ chunks, ∀ e, (st.removeChunkShallow c).1.physical d.id = some e → e = d := by
      intro d hd e he
      refine hchunks d (mem_cons_of_mem _ hd) e ?_
      exact (hremoves.isSome_of (Option.isSome_of_eq_some he)).symm.trans he
    have ih := fun m => @removeShallowLoop_sublist budget chunks m _ (hv.removes hremoves) htail
    rw [removeShallowLoop]
    split
    · rename_i hround
      rw [hround] at ih
      exact (ih n).cons c
    · rename_i removed hround
      rw [hround] at ih hreport
      obtain rfl := hchunks c mem_cons_self removed hreport.symm
      split
      · exact (nil_sublist chunks).cons_cons _
      · exact (ih (n + 1)).cons_cons _

/-! ## Deep removals -/

theorem count_append_le {ids ids₁ ids₂ : List ChunkId} (h₁ : ids₁.Sublist ids) (h₂ : ids₂.Sublist ids)
    (hdisjoint : ∀ x ∈ ids₂, x ∉ ids₁) (id : ChunkId) : (ids₁ ++ ids₂).count id ≤ ids.count id := by
  rw [count_append]
  by_cases hid : id ∈ ids₂
  · rw [count_eq_zero.mpr (hdisjoint id hid), Nat.zero_add]
    exact h₂.count_le id
  · rw [count_eq_zero.mpr hid, Nat.add_zero]
    exact h₁.count_le id

theorem removeDeepLoop_sublist : ∀ {chunks : List Chunk} {st : ChunkStore},
    (reported (removeDeepLoop reason st chunks)).Sublist chunks
  | [], _ => .slnil
  | c :: chunks, st => by
    have ih := @removeDeepLoop_sublist chunks (st.removeChunkFromVirtualIndices c).1
    unfold reported removeDeepLoop
    dsimp only
    split
    · exact ih.cons_cons c
    · exact ih.cons c

theorem removeDeepLoop_reason : ∀ {chunks : List Chunk} {st : ChunkStore},
    ∀ del ∈ (removeDeepLoop reason st chunks).2, del.reason = reason
  | [], _, del, hdel => by cases hdel
  | c :: chunks, st, del, hdel => by
    have ih := @removeDeepLoop_reason chunks (st.removeChunkFromVirtualIndices c).1 del
    unfold removeDeepLoop at hdel
    dsimp only at hdel
    split at hdel
    · rcases mem_cons.mp hdel with rfl | hdel
      · rfl
      · exact ih hdel
    · exact ih hdel

theorem removeChunksDeep_reason {chunks : List Chunk} :
    ∀ del ∈ (st.removeChunksDeep chunks reason).2, del.reason = reason := by
  intro del hdel
  rcases mem_append.mp hdel with hdel | hdel
  · exact removeDeepLoop_reason del hdel
  · exact removeShallowLoop_reason del (mem_filter.mp hdel).1

theorem removeChunksDeep_names (hv : st.catalog.Sound) {chunks : List Chunk}
    (hchunks : ∀ c ∈ chunks, st.physical c.id = some c) :
    Names (reported (st.removeChunksDeep chunks reason)) st.catalog
      (st.removeChunksDeep chunks reason).1.catalog := by
  have habsent : ∀ d ∈ chunks, (st.removeChunksShallow chunks none reason).1.catalog.chunks d.id = none :=
    removeShallowLoop_absent (fun _ => rfl) reason hv
  have hshallow := (@removeShallowLoop_names reason none chunks 0 st hv).1
  have hdeep := @removeDeepLoop_sublist reason chunks (st.removeChunksShallow chunks none reason).1
  intro c
  rw [removeChunksDeep_physical]
  constructor
  · intro hc
    obtain ⟨del, hdel, rfl⟩ := mem_map.mp hc
    rcases mem_append.mp hdel with hdel | hdel
    · have hmem := hdeep.subset (mem_map_of_mem hdel)
      exact ⟨hchunks _ hmem, habsent _ hmem⟩
    · exact (hshallow _).mp (mem_map.mpr ⟨del, (mem_filter.mp hdel).1, rfl⟩)
  · intro hc
    obtain ⟨del, hdel, rfl⟩ := mem_map.mp ((hshallow c).mpr hc)
    unfold reported removeChunksDeep
    rw [map_append, mem_append]
    by_cases hid : ((removeDeepLoop reason (st.removeChunksShallow chunks none reason).1 chunks).2.map
        (·.chunk.id)).contains del.chunk.id = true
    · -- the walk has found the chunk, under its id
      left
      obtain ⟨other, hother, hsame⟩ := mem_map.mp (contains_iff_mem.mp hid)
      have hmem := hdeep.subset (mem_map_of_mem hother)
      have hphys := hchunks _ hmem
      rw [hsame] at hphys
      obtain heq := Option.mem_unique hphys hc.1
      exact mem_map.mpr ⟨other, hother, heq⟩
    · right
      refine mem_map.mpr ⟨del, mem_filter.mpr ⟨hdel, ?_⟩, rfl⟩
      simpa using hid

theorem removeChunksDeep_count (hv : st.catalog.Sound) {chunks : List Chunk}
    (hchunks : ∀ c ∈ chunks, st.physical c.id = some c) (id : ChunkId) :
    ((reported (st.removeChunksDeep chunks reason)).map (·.id)).count id ≤ (chunks.map (·.id)).count id := by
  have hdeep := @removeDeepLoop_sublist reason chunks (st.removeChunksShallow chunks none reason).1
  have hshallow := @removeShallowLoop_sublist reason none chunks 0 st hv fun c hc d hd =>
    (Option.some.inj ((hchunks c hc).symm.trans hd)).symm
  unfold reported removeChunksDeep
  rw [map_append, map_append]
  refine count_append_le (hdeep.map _) ?_ ?_ id
  · exact ((filter_sublist.map ChunkStoreDiffDeletion.chunk).trans hshallow).map Chunk.id
  · -- what the walk has found is not added again
    intro x hx hfound
    obtain ⟨c, hc, rfl⟩ := mem_map.mp hx
    obtain ⟨del, hdel, rfl⟩ := mem_map.mp hc
    have hnot := (mem_filter.mp hdel).2
    rw [map_map] at hfound
    rw [show ((removeDeepLoop reason (st.removeChunksShallow chunks none reason).1 chunks).2.map
      fun d => d.chunk.id).contains del.chunk.id = true from contains_iff_mem.mpr hfound] at hnot
    cases hnot

/-! ## Collections -/

variable {options : GarbageCollectionOptions} {clock : GcClock}

def gcMarked (st : ChunkStore) (options : GarbageCollectionOptions) (clock : GcClock) : List Chunk :=
  st.gcFindCandidates options clock (options.target.targetBytesFromSize
    (st.staticChunksStats + st.temporalPhysicalChunksStats).totalSizeBytes.toNat)

/-- The chunks a collection reports: those of the shallow removal, then those of the deep one. -/
def gcReported (st : ChunkStore) (options : GarbageCollectionOptions) (clock : GcClock) : List Chunk :=
  let shallow := st.removeChunksShallow (st.gcPlan options clock).1 (some clock.sweepExhausted)
    .garbageCollection
  reported shallow ++ reported (shallow.1.removeChunksDeep (st.gcPlan options clock).2 .garbageCollection)

theorem map_deletion_eq {dels : List ChunkStoreDiffDeletion} {reason : ChunkDeletionReason}
    (h : ∀ del ∈ dels, del.reason = reason) : dels.map ChunkStoreDiff.deletion =
      (dels.map (·.chunk)).map fun c => ChunkStoreDiff.deletion ⟨c, reason⟩ := by
  rw [map_map]
  refine map_congr_left fun del hdel => ?_
  rw [Function.comp_apply, ← h del hdel]

theorem gc_events (st : ChunkStore) (options : GarbageCollectionOptions) (clock : GcClock) :
    (st.gc options clock).2 = (st.gcReported options clock).map fun c => .deletion ⟨c, .garbageCollection⟩ := by
  have hdiffs : (st.gc options clock).2 = ((st.removeChunksShallow (st.gcPlan options clock).1
      (some clock.sweepExhausted) .garbageCollection).2 ++ ((st.removeChunksShallow
      (st.gcPlan options clock).1 (some clock.sweepExhausted) .garbageCollection).1.removeChunksDeep
      (st.gcPlan options clock).2 .garbageCollection).2).map ChunkStoreDiff.deletion := by
    unfold gc gcDropAtLeastNumBytes gcPlan
    cases options.performDeepDeletions <;> rfl
  have hshallow : ∀ del ∈ (st.removeChunksShallow (st.gcPlan options clock).1 (some clock.sweepExhausted)
      .garbageCollection).2, del.reason = .garbageCollection := removeShallowLoop_reason
  rw [hdiffs, map_append, map_deletion_eq hshallow, map_deletion_eq removeChunksDeep_reason, ← map_append]
  rfl

theorem gcPlan_halves (st : ChunkStore) (options : GarbageCollectionOptions) (clock : GcClock) :
    (∀ c ∈ (st.gcPlan options clock).2, ∀ d ∈ (st.gcPlan options clock).1, d.id ≠ c.id) ∧
      ((st.gcPlan options clock).1 ++ (st.gcPlan options clock).2).Perm (st.gcMarked options clock) := by
  unfold gcPlan gcMarked
  split
  · exact ⟨fun _ _ _ hd => absurd hd not_mem_nil, .refl _⟩
  · refine ⟨fun c hc d hd heq => ?_, filter_append_perm _ _⟩
    have hroot := (mem_filter.mp hd).2
    rw [heq] at hroot
    have hnot := (mem_filter.mp hc).2
    rw [hroot] at hnot
    cases hnot

theorem gcPlan_deep_physical (hv : st.catalog.Sound) (options : GarbageCollectionOptions)
    (clock : GcClock) : ∀ c ∈ (st.gcPlan options clock).2, (st.removeChunksShallow
      (st.gcPlan options clock).1 (some clock.sweepExhausted) .garbageCollection).1.physical c.id = some c := by
  intro c hc
  have hspares := (gcPlan_removes hv options clock).spares
  refine (hspares c.id fun ⟨d, hd, heq⟩ => ?_).1.trans ((gcPlan_spec hv options clock).2 c hc)
  exact (gcPlan_halves st options clock).1 c hc d hd heq

theorem gcReported_names (hv : st.catalog.Sound) :
    Names (st.gcReported options clock) st.catalog (st.gc options clock).1.catalog := by
  have h₁ := gcPlan_removes hv options clock
  have hsound := hv.removes h₁.removes
  have h₂ := removeChunksDeep_removes hsound (st.gcPlan options clock).2 .garbageCollection
  rw [gc_eq]
  refine Names.append (removeShallowLoop_names hv).1 ?_ h₁.removes h₂.removes
  exact removeChunksDeep_names hsound (gcPlan_deep_physical hv options clock)

theorem gcReported_count (hv : st.catalog.Sound) (id : ChunkId) :
    ((st.gcReported options clock).map (·.id)).count id ≤ ((st.gcMarked options clock).map (·.id)).count id := by
  have h₁ := gcPlan_removes hv options clock
  have hroots : ∀ c ∈ (st.gcPlan options clock).1, ∀ d, st.physical c.id = some d → d = c :=
    fun c hc d hd => (Option.some.inj (((gcPlan_spec hv options clock).1 c hc).1.symm.trans hd)).symm
  have hshallow := (@removeShallowLoop_sublist .garbageCollection (some clock.sweepExhausted)
    (st.gcPlan options clock).1 0 st hv hroots).map Chunk.id |>.count_le id
  have hdeep := @removeChunksDeep_count _ .garbageCollection (hv.removes h₁.removes) _
    (gcPlan_deep_physical hv options clock) id
  have hperm := (((gcPlan_halves st options clock).2.map Chunk.id).count_eq id)
  rw [map_append, count_append] at hperm
  unfold gcReported
  rw [map_append, count_append, ← hperm]
  exact Nat.add_le_add hshallow hdeep

/-! ## What the events of a collection say -/

/-- An id the store knows a chunk of, physically or in a virtual index. -/
def Present (st : ChunkStore) (id : ChunkId) : Prop := st.IsPhysical id ∨ ∃ s, st.ListedAt id s

structure CollectionEvents (st : ChunkStore) (options : GarbageCollectionOptions) (clock : GcClock)
    (cs : List Chunk) : Prop where
  events : (st.gc options clock).2 = cs.map fun c => .deletion ⟨c, .garbageCollection⟩
  evicted : ∀ c, c ∈ cs ↔ st.physical c.id = some c ∧ (st.gc options clock).1.physical c.id = none
  forgotten : ∀ id, st.Present id → ¬ (st.gc options clock).1.Present id → ∃ c ∈ cs, c.id = id
  marked : ∀ id, (cs.map (·.id)).count id ≤ ((st.gcMarked options clock).map (·.id)).count id

/-- A collection names the chunks it evicts, among them every id it makes the store forget, and a
chunk it marks once it names once; what leaves the virtual indices is reported as removed. -/
theorem reachable_deletionEvents (hst : Reachable (fun _ _ => True) st) :
    (∀ options clock, ∃ cs, st.CollectionEvents options clock cs) ∧
      ∀ c : ValidChunk,
        ((∃ s, c.OwnSlot s ∧ st.ListedAt c.id s) → (st.removeChunkFromVirtualIndices c.toChunk).2 = true) ∧
        ((st.removeChunkFromVirtualIndices c.toChunk).2 = false →
          (st.removeChunkFromVirtualIndices c.toChunk).1.catalog = st.catalog) := by
  have hv := hst.sound
  refine ⟨fun options clock => ⟨st.gcReported options clock, gc_events st options clock, gcReported_names hv,
    fun id hid hgone => ?_, gcReported_count hv⟩, fun c => removeChunkFromVirtualIndices_reports st c.toChunk⟩
  have hmarked : st.GcMarks options clock id := by
    by_contra hunmarked
    obtain ⟨hchunk, hlisted, -⟩ := gc_spares hv options clock id hunmarked
    apply hgone
    refine hid.imp (fun hphys => ?_) fun ⟨s, hs⟩ => ⟨s, hlisted s hs⟩
    exact (congrArg Option.isSome hchunk).trans hphys
  obtain ⟨c, hc, rfl⟩ := hmarked
  have hphys := (gcFindCandidates_spec hv (mem_gcPlan.mp hc)).1
  refine ⟨c, (gcReported_names hv c).mpr ⟨hphys, ?_⟩, rfl⟩
  cases hafter : (st.gc options clock).1.catalog.chunks c.id with
  | none => rfl
  | some d => exact absurd (.inl (Option.isSome_iff_exists.mpr ⟨d, hafter⟩)) hgone

/-- The eviction of the announced root is what the events say. -/
theorem loadedStore_deletionEvents :
    (∀ options clock, ∃ cs, loadedStore.CollectionEvents options clock cs) ∧
      ∀ c : ValidChunk,
        ((∃ s, c.OwnSlot s ∧ loadedStore.ListedAt c.id s) →
          (loadedStore.removeChunkFromVirtualIndices c.toChunk).2 = true) ∧
        ((loadedStore.removeChunkFromVirtualIndices c.toChunk).2 = false →
          (loadedStore.removeChunkFromVirtualIndices c.toChunk).1.catalog = loadedStore.catalog) :=
  reachable_deletionEvents loadedStore_reachable

def deletedId : ChunkStoreDiff → Option ChunkId
  | .deletion del => some del.chunk.id
  | _ => none

def everythingBut (id : ChunkId) (timeline : TimelineName) : GarbageCollectionOptions :=
  ⟨.everything, 0, ∅, [id], some (timeline, ⟨.sat 0⟩), true⟩

def sameTimeStore : ChunkStore :=
  (Op.insertChunk (.countingFrom 100) ⟨positionsChunk 2 [2] [0], rfl⟩).run
    ((Op.insertChunk (.countingFrom 100) ⟨positionsChunk 1 [1] [0], rfl⟩).run (.new ⟨0, 0, 0⟩))

/-- An evicted root is named while the virtual indices keep it. A chunk that both passes mark is
named twice, and a chunk nobody has heard of is reported as removed, when another one keeps its time
occupied. -/
theorem loadedStore_eviction :
    (Reachable (fun _ _ => True) loadedStore ∧
      ((loadedStore.gc ⟨.everything, 0, ∅, [], none, false⟩ .unlimited).2.filterMap deletedId = [1] ∧
        (loadedStore.gc ⟨.everything, 0, ∅, [], none, false⟩ .unlimited).1.Present 1)) ∧
      Reachable (fun _ _ => True) sameTimeStore ∧
      (sameTimeStore.gc (everythingBut 2 ⟨"frame"⟩) .unlimited).2.filterMap deletedId = [1, 1] ∧
      (sameTimeStore.removeChunkFromVirtualIndices (positionsChunk 3 [3] [0])).2 = true ∧
      ¬ sameTimeStore.Present 3 := by
  have hmentioned : 3 ∉ sameTimeStore.mentionedIds := by decide
  refine ⟨⟨loadedStore_reachable, by decide, .inr ⟨.timeline ⟨["robot"]⟩ ⟨"frame"⟩ .start ⟨.sat 0⟩, by decide⟩⟩,
    .step (.step (.new _) fresh_countingFrom trivial)
      fresh_countingFrom trivial, by decide, by decide, fun hpresent => ?_⟩
  rcases hpresent with hphys | ⟨s, hs⟩
  · obtain ⟨c, hc⟩ := Option.isSome_iff_exists.mp hphys
    exact hmentioned (Mentions.physical hc).mem
  · exact hmentioned (Mentions.listed hs).mem

end ChunkStore

end Dalaran
