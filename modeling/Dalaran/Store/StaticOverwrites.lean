import Dalaran.Store.StaticData

/-
  Which static chunks an insertion removes.

  The static branch of `insert_chunk_impl` collects the chunks that a component of
  the new chunk takes over from, unless the column of the new chunk is that of a
  transform archetype, and then removes those that no component of the entity points
  at any more (`insertStatic_removes_iff`). So a chunk with transform data goes when
  another chunk takes over all its components and one of them through a plain
  column, and a chunk that nothing ever points at is never looked at.

  Correspondence (Rust ↔ Lean):
    `overwritten_chunk_ids` ↔ `StaticUpdate.overwritten`
    `has_been_fully_overwritten`, from `chunk` ↔ `FullyOverwritten`
-/

namespace Dalaran

open List Assoc Chunk

namespace Chunk

def IsTransform (c : Chunk) (k : ComponentIdentifier) : Prop :=
  ∃ column, c.components.lookup k = some column ∧ ChunkStore.isTransformArchetype column.archetype = true

/-- A row has a non-null cell of a transform archetype. -/
def HasTransformCell (c : Chunk) (row : Row) : Prop := ∃ k, c.IsTransform k ∧ (row.cells k).isSome

/-- No component of the chunk belongs to a transform archetype. -/
def Plain (c : Chunk) : Prop := ∀ k, ¬ c.IsTransform k

end Chunk

namespace ChunkStore

variable {st : ChunkStore} {c : Chunk} {id : ChunkId}

/-! ## The chunks an insertion removes -/

/-- The new chunk takes over from a chunk through a column that is not that of a transform. -/
def PartlyOverwritten (st : ChunkStore) (c : Chunk) (id : ChunkId) : Prop :=
  ∃ k column, c.components.lookup k = some column ∧ isTransformArchetype column.archetype = false ∧
    st.staticChunkIdsPerEntity.lookup (c.entityPath, k) = some id ∧ TakesOver st c k (some id)

/-- It does, and takes over every component that points at the chunk. -/
def FullyOverwritten (st : ChunkStore) (c : Chunk) (id : ChunkId) : Prop :=
  PartlyOverwritten st c id ∧
    ∀ k, st.staticChunkIdsPerEntity.lookup (c.entityPath, k) = some id → TakesOver st c k (some id)

theorem foldl_updateStatic_overwritten (st : ChunkStore) (hc : c.Sound)
    (hphys : ((st.physical id).bind (·.minRowId)).isSome) :
    ∀ (es : List (ComponentIdentifier × ComponentColumn)) (u : StaticUpdate),
    (∀ e ∈ es, c.components.lookup e.1 = some e.2) → (es.map (·.1)).Nodup →
    (((es.foldl (updateStatic st c) u).overwritten.lookup id).isSome ↔ (u.overwritten.lookup id).isSome ∨
      ∃ e ∈ es, isTransformArchetype e.2.archetype = false ∧
        u.staticMap.lookup (c.entityPath, e.1) = some id ∧ TakesOver st c e.1 (some id))
  | [], u, _, _ => by simp
  | (k, column) :: es, u, hcols, hnodup => by
    rw [map_cons, nodup_cons] at hnodup
    have hcol := hcols (k, column) mem_cons_self
    have htail := foldl_updateStatic_overwritten st hc hphys es (updateStatic st c u (k, column))
      (fun e he => hcols e (mem_cons_of_mem _ he)) hnodup.2
    -- the components still to come point where they did
    have hsame : ∀ e ∈ es, (updateStatic st c u (k, column)).staticMap.lookup (c.entityPath, e.1) =
        u.staticMap.lookup (c.entityPath, e.1) := by
      intro e he
      refine ((updateStatic_lookup st u hc hcol (c.entityPath, e.1)).resolve_left fun h => ?_).1
      exact hnodup.1 (mem_map.mpr ⟨e, he, congrArg Prod.snd h.2.1⟩)
    have hrest : (∃ e ∈ es, isTransformArchetype e.2.archetype = false ∧
        (updateStatic st c u (k, column)).staticMap.lookup (c.entityPath, e.1) = some id ∧
          TakesOver st c e.1 (some id)) ↔
        ∃ e ∈ es, isTransformArchetype e.2.archetype = false ∧
          u.staticMap.lookup (c.entityPath, e.1) = some id ∧ TakesOver st c e.1 (some id) :=
      exists_congr fun e => and_congr_right fun he => by rw [hsame e he]
    rw [foldl_cons, htail, hrest, exists_mem_cons_iff]
    obtain ⟨htakes, overwritten, heq, hover⟩ | ⟨hnot, heq⟩ := updateStatic_cases st u hc hcol
    · rw [heq, hover id hphys, or_assoc]
      refine or_congr_right (or_congr_left (and_congr_right fun _ => ?_))
      exact ⟨fun h => ⟨h, h ▸ htakes⟩, fun h => h.1⟩
    · rw [heq]
      refine or_congr_right (iff_or_self.mpr fun h => ?_)
      exact absurd (h.2.1 ▸ h.2.2) hnot

theorem staticUpdate_overwritten (hc : c.Sound) (hphys : ((st.physical id).bind (·.minRowId)).isSome) :
    ((staticUpdate st c).overwritten.lookup id).isSome ↔ PartlyOverwritten st c id := by
  have hnodup : ((toList c.components).map (·.1)).Nodup := by
    unfold toList
    rw [map_map]
    exact c.components.nodupKeys
  unfold staticUpdate
  rw [foldl_updateStatic_overwritten st hc hphys (toList c.components) _
    (fun e he => mem_toList.mp he) hnodup]
  constructor
  · intro h
    obtain ⟨e, he, h⟩ := h.resolve_left (by simp)
    exact ⟨e.1, e.2, mem_toList.mp he, h⟩
  · intro h
    obtain ⟨k, column, hcol, h⟩ := h
    exact .inr ⟨(k, column), mem_toList.mpr hcol, h⟩

variable {d : Chunk}

theorem removeOverwritten_physical (e : EntityPath) (acc : ChunkStore × List ChunkStoreDiff) (x : ChunkId) (r : RowId)
    (hd : acc.1.physical id = some d) :
    (id = x ∧ (∀ k, acc.1.staticChunkIdsPerEntity.lookup (e, k) ≠ some id) ∧
        (removeOverwritten e acc (x, r)).1.physical id = none) ∨
      (¬ (id = x ∧ ∀ k, acc.1.staticChunkIdsPerEntity.lookup (e, k) ≠ some id) ∧
        (removeOverwritten e acc (x, r)).1.physical id = some d) := by
  unfold removeOverwritten
  dsimp only
  split
  · rename_i hpoints
    refine .inr ⟨fun ⟨hid, hunpointed⟩ => ?_, hd⟩
    obtain ⟨⟨⟨e', k⟩, x'⟩, hmem, hp⟩ := any_eq_true.mp hpoints
    obtain ⟨rfl, rfl⟩ : e' = e ∧ x' = x := of_decide_eq_true hp
    exact hunpointed k (hid ▸ mem_toList.mp hmem)
  · rename_i hpoints
    have hunpointed : ∀ k, acc.1.staticChunkIdsPerEntity.lookup (e, k) ≠ some x := by
      intro k hlookup
      refine hpoints (any_eq_true.mpr ⟨((e, k), x), mem_toList.mpr hlookup, ?_⟩)
      simp
    by_cases hid : id = x
    · subst hid
      rw [show (acc.1.eraseRowId r id).physical id = some d from hd]
      exact .inl ⟨rfl, hunpointed, (lookup_erase_ite _ _ _).trans (if_pos rfl)⟩
    · refine .inr ⟨fun h => hid h.1, ?_⟩
      split
      · exact hd
      · exact (lookup_erase_ite _ _ _).trans ((if_neg hid).trans hd)

theorem removeOverwritten_static (e : EntityPath) (acc : ChunkStore × List ChunkStoreDiff)
    (overwritten : ChunkId × RowId) : (removeOverwritten e acc overwritten).1.staticChunkIdsPerEntity =
      acc.1.staticChunkIdsPerEntity := by
  rcases removeOverwritten_cases e acc overwritten.1 overwritten.2 with
    heq | ⟨-, heq⟩ | ⟨removed, -, -, heq⟩ <;>
    exact (congrArg staticChunkIdsPerEntity heq).trans rfl

theorem foldl_removeOverwritten_physical (e : EntityPath) :
    ∀ (l : List (ChunkId × RowId)) (acc : ChunkStore × List ChunkStoreDiff),
    acc.1.physical id = some d →
    ((l.foldl (removeOverwritten e) acc).1.physical id = none ↔
      id ∈ l.map (·.1) ∧ ∀ k, acc.1.staticChunkIdsPerEntity.lookup (e, k) ≠ some id)
  | [], acc, hd => by simp [hd]
  | (x, r) :: l, acc, hd => by
    have hstatic := removeOverwritten_static e acc (x, r)
    rw [foldl_cons, map_cons, mem_cons]
    obtain ⟨hid, hunpointed, hgone⟩ | ⟨hnot, hkept⟩ := removeOverwritten_physical e acc x r hd
    · refine iff_of_true ?_ ⟨.inl hid, hunpointed⟩
      refine foldlRecOn (motive := fun acc : ChunkStore × List ChunkStoreDiff =>
        acc.1.physical id = none) _ _ hgone fun acc' hacc' overwritten _ => ?_
      rcases removeOverwritten_cases e acc' overwritten.1 overwritten.2 with
        heq | ⟨-, heq⟩ | ⟨removed, -, -, heq⟩
      · exact (congrArg (physical · id) heq).trans hacc'
      · exact (congrArg (physical · id) heq).trans hacc'
      · refine (congrArg (physical · id) heq).trans ((lookup_erase_ite _ _ _).trans ?_)
        exact ite_eq_left_iff.mpr fun _ => hacc'
    · rw [foldl_removeOverwritten_physical e l _ hkept, hstatic]
      exact ⟨fun h => ⟨.inr h.1, h.2⟩, fun h => ⟨h.1.resolve_left fun hid => hnot ⟨hid, h.2⟩, h.2⟩⟩

theorem insertStatic_removes_iff (hc : c.Sound) (lineage : ChunkDirectLineageReport) (hd : st.physical id = some d)
    (hsound : d.Sound) (hne : id ≠ c.id) :
    (st.insertStatic c lineage).1.physical id = none ↔ FullyOverwritten st c id := by
  have hphys : ((st.physical id).bind (·.minRowId)).isSome := by
    obtain ⟨lo, hi, hrange, -⟩ := rowIdRange_spec hsound.wf hsound.nonempty
    simp [hd, Chunk.minRowId, hrange]
  -- nothing points at the chunk any more exactly if the new chunk takes over everywhere
  have hpoints : (∀ k, (staticUpdate st c).staticMap.lookup (c.entityPath, k) ≠ some id) ↔
      ∀ k, st.staticChunkIdsPerEntity.lookup (c.entityPath, k) = some id → TakesOver st c k (some id) := by
    refine forall_congr' fun k => ?_
    obtain ⟨hnew, -, htakes⟩ | ⟨hsame, hnot⟩ := staticUpdate_lookup st hc c.entityPath k
    · rw [hnew]
      exact iff_of_true (fun h => hne (Option.some.inj h).symm) fun h => h ▸ htakes
    · rw [hsame]
      exact imp_congr_right fun h => iff_of_false (fun h => h.elim) fun htakes => hnot ⟨rfl, h ▸ htakes⟩
  have hover : id ∈ (toList (staticUpdate st c).overwritten).map (·.1) ↔
      ((staticUpdate st c).overwritten.lookup id).isSome := by
    rw [mem_map, Option.isSome_iff_exists]
    constructor
    · intro h
      obtain ⟨⟨x, r⟩, hmem, rfl⟩ := h
      exact ⟨r, mem_toList.mp hmem⟩
    · intro h
      obtain ⟨r, hr⟩ := h
      exact ⟨(id, r), mem_toList.mpr hr, rfl⟩
  refine (foldl_removeOverwritten_physical c.entityPath
    (toList (staticUpdate st c).overwritten) _ hd).trans ?_
  exact and_congr (hover.trans (staticUpdate_overwritten hc hphys)) hpoints

/-! ## Runs of static insertions, step by step -/

/-- The insertions of a run that the store accepts have a property, in the store they come to. -/
def EachInsertion (P : ChunkStore → Chunk → Prop) (st : ChunkStore) (ins : List (Env × ValidChunk)) : Prop :=
  ∀ done i rest, ins = done ++ i :: rest → (st.insertChunks done).Accepts i.2.toChunk →
    P (st.insertChunks done) i.2.toChunk

theorem EachInsertion.pair {P : ChunkStore → Chunk → Prop} {i j : Env × ValidChunk}
    (hi : P st i.2.toChunk) (hj : P (insertChunk i.1 st i.2.toChunk).1 j.2.toChunk) :
    EachInsertion P st [i, j] := by
  intro done x rest heq _
  cases done with
  | nil =>
    obtain ⟨rfl, -⟩ := cons.inj heq
    exact hi
  | cons a done =>
    obtain ⟨rfl, htail⟩ := cons.inj heq
    cases done with
    | nil =>
      obtain ⟨rfl, -⟩ := cons.inj htail
      exact hj
    | cons b done => simp at htail

theorem EachInsertion.drop {P : ChunkStore → Chunk → Prop} {done rest : List (Env × ValidChunk)}
    (h : EachInsertion P st (done ++ rest)) : EachInsertion P (st.insertChunks done) rest := by
  intro done' i rest' heq hacc
  rw [← insertChunks_append] at hacc ⊢
  exact h (done ++ done') i rest' (by rw [heq, append_assoc]) hacc

theorem VolatileOnly.static_cases (h : VolatileOnly st) (env : Env) (hwf : c.WellFormed)
    (hstatic : c.isStatic = true) (hacc : st.Accepts c) (e : EntityPath) (k : ComponentIdentifier) :
    ((insertChunk env st c).1.staticChunkIdsPerEntity.lookup (e, k) = some c.id ∧ e = c.entityPath ∧
        TakesOver st c k (st.staticChunkIdsPerEntity.lookup (e, k))) ∨
      ((insertChunk env st c).1.staticChunkIdsPerEntity.lookup (e, k) = st.staticChunkIdsPerEntity.lookup (e, k) ∧
        ¬ (e = c.entityPath ∧ TakesOver st c k (st.staticChunkIdsPerEntity.lookup (e, k)))) := by
  obtain ⟨hc, habsent⟩ := (h.accepts_iff hwf).mp hacc
  have habsent' : (st.ensureLineage c.id .volatile).physical c.id = none := habsent
  have hmap : (insertChunk env st c).1.staticChunkIdsPerEntity =
      (staticUpdate (st.ensureLineage c.id .volatile) c).staticMap := by
    rw [h.insertChunk_eq env hacc hstatic]
    exact (insertStatic_overwrites habsent' .volatile).static
  rw [hmap]
  exact staticUpdate_lookup (st.ensureLineage c.id .volatile) hc.toSound e k

theorem VolatileOnly.physical_cases (h : VolatileOnly st) (env : Env) (hwf : c.WellFormed)
    (hstatic : c.isStatic = true) (hacc : st.Accepts c) :
    (insertChunk env st c).1.physical c.id = some c ∧
      (∀ id d, (insertChunk env st c).1.physical id = some d → (id = c.id ∧ d = c) ∨ st.physical id = some d) ∧
      ∀ id d, st.physical id = some d → d.Sound →
        (FullyOverwritten st c id ∧ (insertChunk env st c).1.physical id = none) ∨
          (¬ FullyOverwritten st c id ∧ (insertChunk env st c).1.physical id = some d) := by
  obtain ⟨hc, habsent⟩ := (h.accepts_iff hwf).mp hacc
  have habsent' : (st.ensureLineage c.id .volatile).physical c.id = none := habsent
  have hover := insertStatic_overwrites habsent' .volatile
  have hiff : ∀ id d, st.physical id = some d → d.Sound → id ≠ c.id →
      (((st.ensureLineage c.id .volatile).insertStatic c .volatile).1.physical id = none ↔
        FullyOverwritten st c id) := by
    intro id d hd hsound hne
    have hd' : (st.ensureLineage c.id .volatile).physical id = some d := hd
    exact insertStatic_removes_iff hc.toSound .volatile hd' hsound hne
  rw [h.insertChunk_eq env hacc hstatic]
  generalize ((st.ensureLineage c.id .volatile).insertStatic c .volatile).1 = st₂ at hover hiff
  have hself : (st₂.storePhysical c).physical c.id = some c :=
    (lookup_insert_ite _ _ _ _).trans (if_pos rfl)
  refine ⟨hself, fun id d hd => ?_, fun id d hd hsound => ?_⟩
  · by_cases hid : id = c.id
    · rw [hid, hself] at hd
      exact .inl ⟨hid, (Option.some.inj hd).symm⟩
    · have hd₂ : st₂.physical id = some d :=
        ((lookup_insert_ite _ _ _ _).trans (if_neg hid)).symm.trans hd
      exact .inr ((hover.removes.isSome_of (Option.isSome_of_eq_some hd₂)).symm.trans hd₂)
  have hne : id ≠ c.id := by
    intro hid
    rw [hid, habsent] at hd
    simp at hd
  have hrest : (st₂.storePhysical c).physical id = st₂.physical id :=
    (lookup_insert_ite _ _ _ _).trans (if_neg hne)
  rw [hrest, ← hiff id d hd hsound hne]
  rcases hover.removes.chunks id with hkept | hgone
  · have hsome : st₂.physical id = some d := hkept.trans hd
    simp [hsome]
  · exact .inl ⟨hgone, hgone⟩

/-! ## Transform data -/

/-- No chunk with transform data is fully overwritten. -/
def SparesTransforms (st : ChunkStore) (c : Chunk) : Prop :=
  ∀ id d, st.physical id = some d → (∃ row ∈ d.rows, d.HasTransformCell row) → ¬ FullyOverwritten st c id

theorem VolatileOnly.insertChunks_spares (h : VolatileOnly st) {ins : List (Env × ValidChunk)}
    (hstatic : ∀ i ∈ ins, i.2.isStatic = true) (hspares : EachInsertion SparesTransforms st ins)
    (hd : st.physical id = some d) (hsound : d.Sound) (hrow : ∃ row ∈ d.rows, d.HasTransformCell row) :
    (st.insertChunks ins).physical id = some d := by
  refine (insertChunks_induction (I := fun _ st' => VolatileOnly st' ∧ st'.physical id = some d) ⟨h, hd⟩
    fun done i rest heq hkept => ?_).2
  obtain ⟨hvol, hphys⟩ := hkept
  have hi := hstatic i (by simp [heq])
  refine ⟨hvol.step i.1 i.2.wf hi, ?_⟩
  by_cases hacc : (st.insertChunks done).Accepts i.2.toChunk
  · have hcases := (hvol.physical_cases i.1 i.2.wf hi hacc).2.2 id d hphys hsound
    exact (hcases.resolve_left fun hover =>
      hspares done i rest heq hacc id d hphys hrow hover.1).2
  · rw [insertChunk_of_not_accepts hacc]
    exact hphys

theorem sparesTransforms_of_transforms (hc : ∀ k column, c.components.lookup k = some column →
    isTransformArchetype column.archetype = true) : SparesTransforms st c := by
  intro id d _ _ hover
  obtain ⟨⟨k, column, hcol, hplain, -⟩, -⟩ := hover
  rw [hc k column hcol] at hplain
  simp at hplain

def transformChunk (id : ChunkId) (rowId : RowId) (others : List (ComponentIdentifier × ComponentColumn)) : Chunk :=
  { Chunk.ofColumns id ⟨["robot"]⟩ 0 [rowId] [] [] with
    components := Assoc.ofList ((⟨"translation"⟩,
      ⟨some "dalaran.archetypes.Transform3D", .ofCells [some []]⟩) :: others) }

def colorColumn : ComponentIdentifier × ComponentColumn := (⟨"color"⟩, ⟨none, .ofCells [some []]⟩)

def transformInsertions : List (Env × ValidChunk) :=
  [(.countingFrom 100, ⟨transformChunk 1 1 [], rfl⟩), (.countingFrom 100, ⟨transformChunk 2 2 [], rfl⟩)]

def mixedInsertions : List (Env × ValidChunk) :=
  [(.countingFrom 100, ⟨transformChunk 1 1 [colorColumn], rfl⟩),
    (.countingFrom 100, ⟨transformChunk 2 2 [colorColumn], rfl⟩)]

/-- The second chunk takes over the transform and the color of the first one: the row with the first
transform is in no chunk any more. -/
theorem mixedInsertions_lose_transform :
    (∀ i ∈ mixedInsertions, i.2.isStatic = true) ∧
      (ChunkStore.new ⟨0, 0, 0⟩).Accepts (transformChunk 1 1 [colorColumn]) ∧
      ∃ row ∈ (transformChunk 1 1 [colorColumn]).rows, (transformChunk 1 1 [colorColumn]).HasTransformCell row ∧
        ∀ id d, ((ChunkStore.new ⟨0, 0, 0⟩).insertChunks mixedInsertions).physical id = some d → row ∉ d.rows := by
  have hfinal : toList ((ChunkStore.new ⟨0, 0, 0⟩).insertChunks mixedInsertions).physicalChunksPerChunkId =
      [(2, transformChunk 2 2 [colorColumn])] := rfl
  have hrows : ∀ id rowId, (transformChunk id rowId [colorColumn]).rows =
      [(transformChunk id rowId [colorColumn]).rowAt 0 rowId] := fun _ _ => rfl
  refine ⟨by decide, ⟨rfl, rfl⟩, (transformChunk 1 1 [colorColumn]).rowAt 0 1, ?_, ?_, fun id d hd hrow => ?_⟩
  · rw [hrows]
    exact mem_singleton_self _
  · exact ⟨⟨"translation"⟩, ⟨_, rfl, rfl⟩, rfl⟩
  · have hmem : (id, d) ∈ [((2 : ChunkId), transformChunk 2 2 [colorColumn])] :=
      hfinal ▸ mem_toList.mpr hd
    obtain rfl : d = transformChunk 2 2 [colorColumn] := congrArg Prod.snd (mem_singleton.mp hmem)
    rw [hrows, mem_singleton] at hrow
    exact absurd (congrArg Row.rowId hrow) (show (1 : RowId) ≠ 2 by decide)

/-- In a run whose insertions fully overwrite no chunk with transform data, every row with transform
data that was inserted is in some chunk at the end. -/
theorem static_transforms_kept (config : ChunkSplitConfig) {done rest : List (Env × ValidChunk)}
    {i : Env × ValidChunk} (hstatic : ∀ j ∈ done ++ i :: rest, j.2.isStatic = true)
    (hspares : EachInsertion SparesTransforms (.new config) (done ++ i :: rest))
    (hacc : ((ChunkStore.new config).insertChunks done).Accepts i.2.toChunk) {row : Row}
    (hrow : row ∈ i.2.rows) (htransform : i.2.HasTransformCell row) :
    ∃ id d, ((ChunkStore.new config).insertChunks (done ++ i :: rest)).physical id = some d ∧ row ∈ d.rows := by
  have hvol : VolatileOnly ((ChunkStore.new config).insertChunks done) :=
    insertChunks_induction (I := fun _ st => VolatileOnly st) (.new config) fun done' j rest' heq hvol =>
      hvol.step j.1 j.2.wf (hstatic j (by simp [heq]))
  have hi := hstatic i (by simp)
  have hsound := ((hvol.accepts_iff i.2.wf).mp hacc).1
  have hstored := (hvol.physical_cases i.1 i.2.wf hi hacc).1
  refine ⟨i.2.id, i.2.toChunk, ?_, hrow⟩
  have hcons : (ChunkStore.new config).insertChunks (done ++ i :: rest) =
      ((ChunkStore.new config).insertChunks (done ++ [i])).insertChunks rest := by
    rw [append_cons, insertChunks_append]
  have hlast : (ChunkStore.new config).insertChunks (done ++ [i]) =
      (insertChunk i.1 ((ChunkStore.new config).insertChunks done) i.2.toChunk).1 :=
    insertChunks_append ..
  rw [append_cons] at hspares
  rw [hcons]
  refine VolatileOnly.insertChunks_spares ?_ (fun j hj => hstatic j (by simp [hj])) hspares.drop ?_ hsound.toSound
    ⟨row, hrow, htransform⟩
  · rw [hlast]
    exact hvol.step i.1 i.2.wf hi
  · rw [hlast]
    exact hstored

/-- The first of two transforms stays. -/
theorem transformInsertions_keep_first :
    ∃ id d, ((ChunkStore.new ⟨0, 0, 0⟩).insertChunks transformInsertions).physical id = some d ∧
      (transformChunk 1 1 []).rowAt 0 1 ∈ d.rows := by
  have hspares : EachInsertion SparesTransforms (.new ⟨0, 0, 0⟩) transformInsertions := by
    intro done i rest heq _
    have hi : i ∈ transformInsertions := by simp [heq]
    have hchunk : ∃ id rowId, i.2.toChunk = transformChunk id rowId [] := by
      rcases mem_pair.mp hi with rfl | rfl
      · exact ⟨1, 1, rfl⟩
      · exact ⟨2, 2, rfl⟩
    obtain ⟨id, rowId, hchunk⟩ := hchunk
    rw [hchunk]
    refine sparesTransforms_of_transforms fun k column hcol => ?_
    have hmem : (k, column) ∈ toList (transformChunk id rowId []).components :=
      mem_toList.mpr hcol
    rw [show column = _ from congrArg Prod.snd (mem_singleton.mp hmem)]
    rfl
  exact @static_transforms_kept ⟨0, 0, 0⟩ [] _ _ (by decide) hspares ⟨rfl, rfl⟩ _
    (mem_singleton_self _) ⟨⟨"translation"⟩, ⟨_, rfl, rfl⟩, rfl⟩

/-! ## Chunks that nothing points at -/

/-- Every component of a chunk is superseded: for each of its cells, some chunk of the entity has a
cell with a greater row id. -/
def Superseded (cs : List Chunk) (c : Chunk) : Prop :=
  ∀ k r, c.HasCell k r → ∃ d ∈ cs, d.entityPath = c.entityPath ∧ ∃ r', d.HasCell k r' ∧ r < r'

/-- What an insertion needs for no chunk without transforms to be left behind. -/
structure LeavesNothing (st : ChunkStore) (c : Chunk) : Prop where
  /-- The new chunk takes over some component. -/
  lands : c.Plain → ∃ k, TakesOver st c k (st.staticChunkIdsPerEntity.lookup (c.entityPath, k))
  /-- A chunk that loses all that points at it loses some of it through a plain column. -/
  clears : ∀ id d, st.physical id = some d → d.entityPath = c.entityPath → d.Plain →
    (∀ k, st.staticChunkIdsPerEntity.lookup (c.entityPath, k) = some id → TakesOver st c k (some id)) →
    PartlyOverwritten st c id
  /-- Taking over agrees with the greatest row ids of the two chunks. -/
  agrees : ∀ k id d r r', st.staticChunkIdsPerEntity.lookup (c.entityPath, k) = some id →
    st.physical id = some d → (d.cellRowIds k).getLast? = some r → (c.cellRowIds k).getLast? = some r' →
    (TakesOver st c k (some id) ↔ r < r')

variable {cs : List Chunk}

/-- What static insertions keep true while they leave nothing behind. -/
structure TidyRun (cs : List Chunk) (st : ChunkStore) : Prop extends StaticRun cs st where
  pointed : ∀ id d, st.physical id = some d → d.Plain →
    ∃ k, st.staticChunkIdsPerEntity.lookup (d.entityPath, k) = some id
  greatest : ∀ k id d, st.physical id = some d → st.staticChunkIdsPerEntity.lookup (d.entityPath, k) = some id →
    ∀ d' ∈ cs, d'.Insertable → d'.entityPath = d.entityPath → ∀ r', d'.HasCell k r' → ∃ r, d.HasCell k r ∧ r' ≤ r

theorem TidyRun.new (config : ChunkSplitConfig) : TidyRun [] (.new config) := by
  refine ⟨.new config, fun id d h => ?_, by simp⟩
  simp [ChunkStore.physical, ChunkStore.new] at h

theorem TidyRun.pointed_step (h : TidyRun cs st) (env : Env) (hwf : c.WellFormed) (hstatic : c.isStatic = true)
    (hacc : st.Accepts c) (hleaves : LeavesNothing st c) (hd : (insertChunk env st c).1.physical id = some d)
    (hplain : d.Plain) :
    ∃ k, (insertChunk env st c).1.staticChunkIdsPerEntity.lookup (d.entityPath, k) = some id := by
  have hvol := h.volatileOnly
  obtain ⟨-, hback, hforth⟩ := hvol.physical_cases env hwf hstatic hacc
  obtain ⟨rfl, rfl⟩ | hold := hback id d hd
  · obtain ⟨k, htakes⟩ := hleaves.lands hplain
    have hcases := hvol.static_cases env hwf hstatic hacc d.entityPath k
    exact ⟨k, (hcases.resolve_right fun hsame => hsame.2 ⟨rfl, htakes⟩).1⟩
  · by_contra hnone
    rw [not_exists] at hnone
    -- all that pointed at the chunk was taken over
    have htaken : ∀ k, st.staticChunkIdsPerEntity.lookup (d.entityPath, k) = some id →
        d.entityPath = c.entityPath ∧ TakesOver st c k (some id) := by
      intro k hk
      obtain ⟨-, he, htakes⟩ | ⟨hsame, -⟩ := hvol.static_cases env hwf hstatic hacc d.entityPath k
      · exact ⟨he, hk ▸ htakes⟩
      · exact absurd (hsame.trans hk) (hnone k)
    obtain ⟨k₀, hk₀⟩ := h.pointed id d hold hplain
    have he := (htaken k₀ hk₀).1
    rw [he] at htaken
    have hall : ∀ k, st.staticChunkIdsPerEntity.lookup (c.entityPath, k) = some id →
        TakesOver st c k (some id) := fun k hk => (htaken k hk).2
    have hover : FullyOverwritten st c id := ⟨hleaves.clears id d hold he hplain hall, hall⟩
    obtain ⟨-, hgone⟩ | ⟨hnot, -⟩ := hforth id d hold (h.physical id d hold).2.2.toSound
    · rw [hgone] at hd
      simp at hd
    · exact hnot hover

theorem TidyRun.greatest_step (h : TidyRun cs st) (env : Env) (hwf : c.WellFormed) (hstatic : c.isStatic = true)
    (hacc : st.Accepts c) (hleaves : LeavesNothing st c) {k : ComponentIdentifier}
    (hd : (insertChunk env st c).1.physical id = some d)
    (hk : (insertChunk env st c).1.staticChunkIdsPerEntity.lookup (d.entityPath, k) = some id) {d' : Chunk}
    (hd' : d' ∈ c :: cs) (hsound : d'.Insertable) (he : d'.entityPath = d.entityPath) {r' : RowId}
    (hr' : d'.HasCell k r') : ∃ r, d.HasCell k r ∧ r' ≤ r := by
  have hvol := h.volatileOnly
  obtain ⟨hc, habsent⟩ := (hvol.accepts_iff hwf).mp hacc
  obtain ⟨hself, hback, -⟩ := hvol.physical_cases env hwf hstatic hacc
  obtain ⟨hnew, hec, htakes⟩ | ⟨hsame, hnot⟩ := hvol.static_cases env hwf hstatic hacc d.entityPath k
  · -- the component points at the new chunk
    obtain rfl : c.id = id := Option.mem_unique hnew hk
    obtain rfl : c = d := Option.mem_unique hself hd
    obtain rfl | hd' := mem_cons.mp hd'
    · exact ⟨r', hr', le_refl _⟩
    · cases hcur : st.staticChunkIdsPerEntity.lookup (c.entityPath, k) with
      | none =>
        have hempty := h.covers _ k hcur d' hd' hsound he
        have hmem := mem_cellRowIds.mpr hr'
        rw [List.head?_eq_none_iff.mp hempty] at hmem
        simp at hmem
      | some cur =>
        obtain ⟨d₀, r₀, -, hd₀, he₀, hr₀, -⟩ := h.points _ k cur hcur
        obtain ⟨r₁, hr₁, hle⟩ := h.greatest k cur d₀ hd₀ (he₀ ▸ hcur) d' hd' hsound (he.trans he₀.symm) r' hr'
        obtain ⟨last₀, hlast₀, -, hle₀⟩ :=
          exists_getLast?_cellRowIds (h.physical cur d₀ hd₀).2.2.toSound hr₁
        obtain ⟨first, hfirst, hlt⟩ := htakes
        obtain ⟨last, hlast, hcell, -⟩ :=
          exists_getLast?_cellRowIds hc.toSound (mem_cellRowIds.mp (mem_of_head? hfirst))
        have hagree := hleaves.agrees k cur d₀ last₀ last hcur hd₀ hlast₀ hlast
        have hlast_lt : last₀ < last := hagree.mp ⟨first, hfirst, hcur ▸ hlt⟩
        exact ⟨last, hcell, (hle.trans hle₀).trans hlast_lt.le⟩
  · rw [hsame] at hk
    obtain ⟨d₀, r₀, -, hd₀, -, hr₀, -⟩ := h.points _ k id hk
    have hne : id ≠ c.id := by
      intro hid
      rw [hid, habsent] at hd₀
      simp at hd₀
    have hold := (hback id d hd).resolve_left fun hnew => hne hnew.1
    obtain rfl : d = d₀ := Option.mem_unique hold hd₀
    obtain rfl | hd' := mem_cons.mp hd'
    · -- the new chunk does not take over, so its row ids are not greater
      obtain ⟨last, hlast, hcell, -⟩ := exists_getLast?_cellRowIds (h.physical id d hold).2.2.toSound
        (mem_cellRowIds.mp (mem_of_head? hr₀))
      obtain ⟨last', hlast', -, hle'⟩ := exists_getLast?_cellRowIds hc.toSound hr'
      have hagree := hleaves.agrees k id d last last' (he ▸ hk) hold hlast hlast'
      refine ⟨last, hcell, hle'.trans (not_lt.mp fun hlt => hnot ⟨he.symm, ?_⟩)⟩
      rw [hk]
      exact hagree.mpr hlt
    · exact h.greatest k id d hold hk d' hd' hsound he r' hr'

theorem TidyRun.step (h : TidyRun cs st) (env : Env) (hwf : c.WellFormed) (hstatic : c.isStatic = true)
    (hids : ∀ d ∈ cs, d.id = c.id → d = c) (hleaves : st.Accepts c → LeavesNothing st c) :
    TidyRun (c :: cs) (insertChunk env st c).1 := by
  have hrun := h.toStaticRun.step env hwf hstatic hids
  by_cases hacc : st.Accepts c
  · exact ⟨hrun, fun id d hd hplain => h.pointed_step env hwf hstatic hacc (hleaves hacc) hd hplain,
      fun k id d hd hk d' hd' hsound he r' hr' =>
        h.greatest_step env hwf hstatic hacc (hleaves hacc) hd hk hd' hsound he hr'⟩
  · rw [insertChunk_of_not_accepts hacc] at hrun ⊢
    refine ⟨hrun, h.pointed, fun k id d hd hk d' hd' hsound he r' hr' => ?_⟩
    -- a sound chunk that is not accepted is there already
    have hmem : d' ∈ cs := by
      obtain rfl | hd' := mem_cons.mp hd'
      · rw [h.volatileOnly.accepts_iff hwf, not_and] at hacc
        obtain ⟨d₀, hd₀⟩ := Option.ne_none_iff_exists'.mp (hacc hsound)
        obtain ⟨hmem, hid, -⟩ := h.physical d'.id d₀ hd₀
        rwa [← hids d₀ hmem hid]
      · exact hd'
    exact h.greatest k id d hd hk d' hmem hsound he r' hr'

theorem staticChunk_plain (id : ChunkId) (rowIds : List RowId) : (staticChunk id rowIds).Plain := by
  intro k htransform
  obtain ⟨column, hcol, harchetype⟩ := htransform
  have hmem : (k, column) ∈ toList (staticChunk id rowIds).components := mem_toList.mpr hcol
  rw [show column = _ from congrArg Prod.snd (mem_singleton.mp hmem)] at harchetype
  exact absurd (show isTransformArchetype none = true from harchetype) (by decide)

theorem staticChunk_hasCell {rowIds : List RowId} {k : ComponentIdentifier} {r : RowId}
    (h : (staticChunk id rowIds).HasCell k r) : k = ⟨"color"⟩ := by
  have hcell := mem_cellRowIds.mpr h
  unfold Chunk.cellRowIds at hcell
  cases hcol : (staticChunk id rowIds).components.lookup k with
  | none => simp [hcol] at hcell
  | some column =>
    have hmem : (k, column) ∈ toList (staticChunk id rowIds).components := mem_toList.mpr hcol
    exact congrArg Prod.fst (mem_singleton.mp hmem)

def lateInsertions : List (Env × ValidChunk) :=
  [(.countingFrom 100, ⟨staticChunk 1 [10], rfl⟩), (.countingFrom 100, ⟨staticChunk 2 [5], staticChunk_sane⟩)]

/-- The second chunk is superseded when it comes: nothing points at it, and it stays. -/
theorem lateInsertions_leave_chunk :
    StaticInsertions lateInsertions ∧ (staticChunk 2 [5]).Plain ∧
      ((ChunkStore.new ⟨0, 0, 0⟩).insertChunks lateInsertions).physical 2 = some (staticChunk 2 [5]) ∧
      (∀ k, ((ChunkStore.new ⟨0, 0, 0⟩).insertChunks lateInsertions).staticChunkIdsPerEntity.lookup
        ((staticChunk 2 [5]).entityPath, k) ≠ some 2) ∧
      Superseded (insertedChunks lateInsertions) (staticChunk 2 [5]) := by
  have hmap : toList ((ChunkStore.new ⟨0, 0, 0⟩).insertChunks lateInsertions).staticChunkIdsPerEntity =
      [((⟨["robot"]⟩, ⟨"color"⟩), 1)] := rfl
  refine ⟨staticInsertions_pair rfl rfl (by decide), staticChunk_plain 2 [5], rfl, fun k hk => ?_, fun k r hr => ?_⟩
  · have hmem : (((staticChunk 2 [5]).entityPath, k), (2 : ChunkId)) ∈
        [(((⟨["robot"]⟩ : EntityPath), (⟨"color"⟩ : ComponentIdentifier)), (1 : ChunkId))] :=
      hmap ▸ mem_toList.mpr hk
    exact absurd (congrArg Prod.snd (mem_singleton.mp hmem)) (show (2 : ChunkId) ≠ 1 by decide)
  · obtain rfl := staticChunk_hasCell hr
    have hr5 : r = 5 := mem_singleton.mp (show r ∈ [5] from mem_cellRowIds.mpr hr)
    subst hr5
    exact ⟨staticChunk 1 [10], mem_cons_self, rfl, 10, mem_cellRowIds.mp (by decide), by decide⟩

/-- In a run whose insertions leave nothing behind, every chunk without transforms is what some
component points at, and no such chunk is superseded in all its components. -/
theorem static_chunks_tidy (config : ChunkSplitConfig) {ins : List (Env × ValidChunk)}
    (h : StaticInsertions ins) (hleaves : EachInsertion LeavesNothing (.new config) ins) {d : Chunk}
    (hd : ((ChunkStore.new config).insertChunks ins).physical id = some d) (hplain : d.Plain) :
    (∃ k, ((ChunkStore.new config).insertChunks ins).staticChunkIdsPerEntity.lookup (d.entityPath, k) =
      some id) ∧ ¬ Superseded (insertedChunks ins) d := by
  have hrun : TidyRun (ins.map (·.2.toChunk)).reverse ((ChunkStore.new config).insertChunks ins) := by
    refine insertChunks_induction (I := fun done st => TidyRun (done.map (·.2.toChunk)).reverse st)
      (TidyRun.new config) fun done i rest heq hrun => ?_
    have hi : i ∈ ins := by simp [heq]
    rw [map_append, map_singleton, reverse_append]
    refine hrun.step i.1 i.2.wf (h.static i hi) (fun d hd hid => ?_) (hleaves done i rest heq)
    obtain ⟨j, hj, rfl⟩ := mem_map.mp (mem_reverse.mp hd)
    exact h.ids j (by simp [heq, hj]) i hi hid
  obtain ⟨k, hk⟩ := hrun.pointed id d hd hplain
  refine ⟨⟨k, hk⟩, fun hsuper => ?_⟩
  obtain ⟨d₀, r₀, -, hd₀, -, hr₀, -⟩ := hrun.points _ k id hk
  obtain rfl : d = d₀ := Option.some.inj (hd.symm.trans hd₀)
  obtain ⟨last, hlast, hcell, -⟩ := exists_getLast?_cellRowIds (hrun.physical id d hd).2.2.toSound
    (mem_cellRowIds.mp (mem_of_head? hr₀))
  obtain ⟨d', hd', he, r', hr', hlt⟩ := hsuper k last hcell
  have hmem : d' ∈ (ins.map (·.2.toChunk)).reverse := mem_reverse.mpr (mem_filter.mp hd').1
  obtain ⟨r, hr, hle⟩ := hrun.greatest k id d hd hk d' hmem (insertable_of_hasCell hd' hr') he r' hr'
  obtain ⟨last', hlast', -, hle'⟩ := exists_getLast?_cellRowIds (hrun.physical id d hd).2.2.toSound hr
  obtain rfl : last = last' := Option.some.inj (hlast.symm.trans hlast')
  exact absurd (hlt.trans_le (hle.trans hle')) (lt_irrefl _)

/-- A chunk whose greater row id comes later replaces the one before it. -/
theorem orderedInsertions_tidy :
    (∃ k, ((ChunkStore.new ⟨0, 0, 0⟩).insertChunks orderedInsertions).staticChunkIdsPerEntity.lookup
      (⟨["robot"]⟩, k) = some 2) ∧
      ¬ Superseded (insertedChunks orderedInsertions) (staticChunk 2 [5]) := by
  have hleaves : EachInsertion LeavesNothing (.new ⟨0, 0, 0⟩) orderedInsertions := by
    refine .pair ⟨fun _ => ⟨⟨"color"⟩, 1, rfl, by simp [ChunkStore.new]⟩, ?_, ?_⟩ ?_
    · intro id d hd
      simp [ChunkStore.physical, ChunkStore.new] at hd
    · intro k id d r r' hid
      simp [ChunkStore.new] at hid
    · generalize hst : (insertChunk (.countingFrom 100) (.new ⟨0, 0, 0⟩) (staticChunk 1 [1, 2])).1 = st
      have hphys : ∀ id d, st.physical id = some d → id = 1 ∧ d = staticChunk 1 [1, 2] := by
        intro id d hd
        have hmem : (id, d) ∈ [((1 : ChunkId), staticChunk 1 [1, 2])] := by
          have hlist : toList st.physicalChunksPerChunkId = [(1, staticChunk 1 [1, 2])] := hst ▸ rfl
          exact hlist ▸ mem_toList.mpr hd
        exact Prod.mk.inj (mem_singleton.mp hmem)
      have htakes : TakesOver st (staticChunk 2 [5]) ⟨"color"⟩ (some 1) := by
        refine ⟨5, rfl, fun id hid => ?_⟩
        cases hid
        rw [← hst]
        decide
      have hcolor : st.staticChunkIdsPerEntity.lookup (⟨["robot"]⟩, ⟨"color"⟩) = some 1 := hst ▸ rfl
      refine ⟨fun _ => ⟨⟨"color"⟩, hcolor ▸ htakes⟩, fun id d hd _ _ _ => ?_, fun k id d r r' hk hd hr hr' => ?_⟩
      · obtain ⟨rfl, rfl⟩ := hphys id d hd
        exact ⟨⟨"color"⟩, _, rfl, rfl, hcolor, htakes⟩
      · obtain ⟨rfl, rfl⟩ := hphys id d hd
        obtain rfl := staticChunk_hasCell (mem_cellRowIds.mp (mem_of_getLast? hr))
        obtain rfl : 2 = r := Option.some.inj hr
        obtain rfl : 5 = r' := Option.some.inj hr'
        exact iff_of_true htakes (by decide)
  exact static_chunks_tidy ⟨0, 0, 0⟩ (staticInsertions_pair rfl rfl (by decide)) hleaves rfl
    (staticChunk_plain 2 [5])

end ChunkStore

end Dalaran
