import Dalaran.Chunk.RowIdRange
import Dalaran.Store.Run

/-
  Static data: which chunk a component of an entity points at.

  A component should point at the chunk that holds the row with the greatest row id.
  The insertion compares what `row_id_range_per_component` calls the maximum of a
  component; in a sorted chunk that is the row id of the *first* non-null row. So
  the map points at the chunk whose smallest non-null row id is the greatest
  (`staticRun_points`), and that is the chunk with the greatest row id only if the
  two agree (`static_resolution_iff`).
-/

namespace Dalaran

open List Chunk Assoc LineageDroppingCtx

/-! ## The row ids of a component in a sound chunk -/

namespace Chunk

variable {c : Chunk} {k : ComponentIdentifier} {r : RowId}

theorem ascending_cellRowIds (hc : c.Sound) (k : ComponentIdentifier) : Seq.ascending (c.cellRowIds k) = true := by
  unfold cellRowIds
  cases c.components.lookup k with
  | none => rfl
  | some column => exact Seq.ascending_select _ (hc.wf.isSorted_eq.symm.trans hc.sorted)

theorem exists_getLast?_cellRowIds (hc : c.Sound) (hr : c.HasCell k r) :
    ∃ last, (c.cellRowIds k).getLast? = some last ∧ c.HasCell k last ∧ r ≤ last := by
  have hmem := mem_cellRowIds.mpr hr
  obtain ⟨last, hlast⟩ := Option.ne_none_iff_exists'.mp fun h =>
    ne_nil_of_mem hmem (List.getLast?_eq_none_iff.mp h)
  exact ⟨last, hlast, mem_cellRowIds.mp (mem_of_getLast? hlast),
    Seq.le_getLast?_of_ascending (ascending_cellRowIds hc k) hlast hmem⟩

theorem head?_cellRowIds_iff (hc : c.Sound) :
    (c.cellRowIds k).head? = some r ↔ c.HasCell k r ∧ ∀ r', c.HasCell k r' → r ≤ r' := by
  have hasc := ascending_cellRowIds hc k
  constructor
  · intro h
    exact ⟨mem_cellRowIds.mp (mem_of_head? h),
      fun r' hr' => Seq.head?_le_of_ascending hasc h (mem_cellRowIds.mpr hr')⟩
  · rintro ⟨hr, hle⟩
    have hmem := mem_cellRowIds.mpr hr
    obtain ⟨a, ha⟩ := Option.ne_none_iff_exists'.mp fun h =>
      ne_nil_of_mem hmem (List.head?_eq_none_iff.mp h)
    have h1 := Seq.head?_le_of_ascending hasc ha hmem
    have h2 := hle a (mem_cellRowIds.mp (mem_of_head? ha))
    rw [ha, le_antisymm h1 h2]

end Chunk

namespace ChunkStore

variable {st : ChunkStore} {c : Chunk}

/-! ## One insertion -/

def TakesOver (st : ChunkStore) (c : Chunk) (k : ComponentIdentifier) (cur : Option ChunkId) : Prop :=
  ∃ r, (c.cellRowIds k).head? = some r ∧ ∀ id, cur = some id → st.staticRowId id k < r

variable {k : ComponentIdentifier}

theorem updateStatic_cases (st : ChunkStore) (u : StaticUpdate) (hc : c.Sound) {column : ComponentColumn}
    (hcol : c.components.lookup k = some column) :
    (TakesOver st c k (u.staticMap.lookup (c.entityPath, k)) ∧
      ∃ overwritten, updateStatic st c u (k, column) =
          ⟨AList.insert (c.entityPath, k) c.id u.staticMap, overwritten⟩ ∧
        ∀ id, ((st.physical id).bind (·.minRowId)).isSome →
          ((overwritten.lookup id).isSome ↔ (u.overwritten.lookup id).isSome ∨
            isTransformArchetype column.archetype = false ∧ u.staticMap.lookup (c.entityPath, k) = some id)) ∨
      (¬ TakesOver st c k (u.staticMap.lookup (c.entityPath, k)) ∧ updateStatic st c u (k, column) = u) := by
  have hbits : column.listArray.validityIsEmpty = false := by
    have hlen := hc.wf.cells_length k column hcol
    have hrows : c.numRows ≠ 0 := fun h => hc.nonempty (length_eq_zero_iff.mp h)
    have hne : column.listArray.entries ≠ [] := fun h => by
      rw [ListArray.len, h, length_nil] at hlen
      exact hrows hlen.symm
    simp [ListArray.validityIsEmpty, hne]
  have hrange := rowIdRangePerComponent_of_sorted hc.sorted k
  unfold updateStatic
  simp only [hbits, Bool.false_eq_true, if_false]
  cases hr : c.rowIdRangePerComponent.lookup k with
  | none =>
    rw [hr] at hrange
    refine .inr ⟨fun htakes => ?_, rfl⟩
    obtain ⟨r, hhead, -⟩ := htakes
    rw [← hrange] at hhead
    simp at hhead
  | some range =>
    obtain ⟨lo, hi⟩ := range
    rw [hr] at hrange
    have hhead : (c.cellRowIds k).head? = some hi := hrange.symm
    cases hcur : u.staticMap.lookup (c.entityPath, k) with
    | none => exact .inl ⟨⟨hi, hhead, by simp⟩, u.overwritten, rfl, by simp⟩
    | some cur =>
      dsimp only
      split
      · rename_i hlt
        refine .inl ⟨⟨hi, hhead, fun id hid => ?_⟩, _, rfl, fun id hid => ?_⟩
        · rwa [← Option.some.inj hid]
        · by_cases hcid : id = cur
          · subst hcid
            obtain ⟨curMin, hmin⟩ := Option.isSome_iff_exists.mp hid
            rw [hmin]
            cases htransform : isTransformArchetype column.archetype <;> simp
          · have hne : some cur ≠ some id := fun h => hcid (Option.some.inj h).symm
            cases hmin : (st.physical cur).bind (·.minRowId) with
            | none => simp [hne]
            | some curMin =>
              cases htransform : isTransformArchetype column.archetype <;>
                simp [hne, hcid]
      · rename_i hlt
        refine .inr ⟨fun htakes => hlt ?_, rfl⟩
        obtain ⟨r, hr', hlt'⟩ := htakes
        rw [hhead] at hr'
        rw [Option.some.inj hr']
        exact hlt' cur rfl

theorem updateStatic_lookup (st : ChunkStore) (u : StaticUpdate) (hc : c.Sound) {column : ComponentColumn}
    (hcol : c.components.lookup k = some column) (key : EntityPath × ComponentIdentifier) :
    ((updateStatic st c u (k, column)).staticMap.lookup key = some c.id ∧ key = (c.entityPath, k) ∧
        TakesOver st c k (u.staticMap.lookup key)) ∨
      ((updateStatic st c u (k, column)).staticMap.lookup key = u.staticMap.lookup key ∧
        ¬ (key = (c.entityPath, k) ∧ TakesOver st c k (u.staticMap.lookup key))) := by
  rcases updateStatic_cases st u hc hcol with ⟨htakes, overwritten, heq, -⟩ | ⟨hnot, heq⟩
  · rw [heq]
    by_cases hkey : key = (c.entityPath, k)
    · subst hkey
      exact .inl ⟨by rw [lookup_insert_ite, if_pos rfl], rfl, htakes⟩
    · exact .inr ⟨by rw [lookup_insert_ite, if_neg hkey], fun h => hkey h.1⟩
  · rw [heq]
    refine .inr ⟨rfl, fun ⟨hkey, htakes⟩ => hnot ?_⟩
    rwa [← hkey]

theorem foldl_updateStatic_lookup (st : ChunkStore) (hc : c.Sound) :
    ∀ (es : List (ComponentIdentifier × ComponentColumn)) (u : StaticUpdate), (∀ e ∈ es, c.components.lookup e.1 = some e.2) → (es.map (·.1)).Nodup →
    ∀ key : EntityPath × ComponentIdentifier,
      ((es.foldl (updateStatic st c) u).staticMap.lookup key = some c.id ∧ key.1 = c.entityPath ∧
          key.2 ∈ es.map (·.1) ∧ TakesOver st c key.2 (u.staticMap.lookup key)) ∨
        ((es.foldl (updateStatic st c) u).staticMap.lookup key = u.staticMap.lookup key ∧
          ¬ (key.1 = c.entityPath ∧ key.2 ∈ es.map (·.1) ∧ TakesOver st c key.2 (u.staticMap.lookup key)))
  | [], u, _, _, key => .inr ⟨rfl, by simp⟩
  | (k, column) :: es, u, hcols, hnodup, key => by
    rw [map_cons, nodup_cons] at hnodup
    have hhead := updateStatic_lookup st u hc (hcols (k, column) mem_cons_self) key
    have htail := foldl_updateStatic_lookup st hc es (updateStatic st c u (k, column))
      (fun e he => hcols e (mem_cons_of_mem _ he)) hnodup.2 key
    rw [foldl_cons]
    by_cases hkey : key = (c.entityPath, k)
    · -- the component is not visited again
      subst hkey
      obtain ⟨hsame, -⟩ := htail.resolve_left fun h => hnodup.1 h.2.2.1
      rw [hsame]
      rcases hhead with ⟨h1, -, h2⟩ | ⟨h1, h2⟩
      · exact .inl ⟨h1, rfl, mem_cons_self, h2⟩
      · exact .inr ⟨h1, fun h => h2 ⟨rfl, h.2.2⟩⟩
    · obtain ⟨hsame, -⟩ := hhead.resolve_left fun h => hkey h.2.1
      rw [hsame] at htail
      rcases htail with ⟨h1, h2, h3, h4⟩ | ⟨h1, h2⟩
      · exact .inl ⟨h1, h2, mem_cons_of_mem _ h3, h4⟩
      · refine .inr ⟨h1, fun ⟨h3, h4, h5⟩ => h2 ⟨h3, ?_, h5⟩⟩
        refine (mem_cons.mp h4).resolve_left fun heq => hkey ?_
        exact Prod.ext h3 heq

theorem staticUpdate_lookup (st : ChunkStore) (hc : c.Sound) (e : EntityPath) (k : ComponentIdentifier) :
    ((staticUpdate st c).staticMap.lookup (e, k) = some c.id ∧ e = c.entityPath ∧
        TakesOver st c k (st.staticChunkIdsPerEntity.lookup (e, k))) ∨
      ((staticUpdate st c).staticMap.lookup (e, k) = st.staticChunkIdsPerEntity.lookup (e, k) ∧
        ¬ (e = c.entityPath ∧ TakesOver st c k (st.staticChunkIdsPerEntity.lookup (e, k)))) := by
  have hnodup : ((Assoc.toList c.components).map (·.1)).Nodup := by
    unfold Assoc.toList
    rw [map_map]
    exact c.components.nodupKeys
  rcases foldl_updateStatic_lookup st hc (Assoc.toList c.components)
    ⟨st.staticChunkIdsPerEntity, ∅⟩ (fun e he => mem_toList.mp he) hnodup (e, k) with
    ⟨h1, h2, -, h3⟩ | ⟨h1, h2⟩
  · exact .inl ⟨h1, h2, h3⟩
  · refine .inr ⟨h1, fun ⟨h3, h4⟩ => h2 ⟨h3, ?_, h4⟩⟩
    -- a component that takes over has a cell, so the chunk has its column
    obtain ⟨r, hr, -⟩ := h4
    cases hcol : c.components.lookup k with
    | none => simp [Chunk.cellRowIds, hcol] at hr
    | some column => exact mem_map.mpr ⟨(k, column), mem_toList.mpr hcol, rfl⟩

theorem staticRowId_eq {id : ChunkId} {d : Chunk} {r : RowId} (hd : st.physical id = some d) (hs : d.isSorted = true)
    (hr : (d.cellRowIds k).head? = some r) :
    st.staticRowId id k = r := by
  rw [← rowIdRangePerComponent_of_sorted hs] at hr
  obtain ⟨range, hrange, rfl⟩ := Option.map_eq_some_iff.mp hr
  simp [staticRowId, hd, hrange]

/-! ## Runs of static insertions -/

def insertChunks (st : ChunkStore) (ins : List (Env × ValidChunk)) : ChunkStore :=
  ins.foldl (fun st i => (insertChunk i.1 st i.2.toChunk).1) st

theorem insertChunks_append (st : ChunkStore) (done rest : List (Env × ValidChunk)) :
    st.insertChunks (done ++ rest) = (st.insertChunks done).insertChunks rest := foldl_append ..

variable {ins : List (Env × ValidChunk)}

theorem insertChunks_induction {I : List (Env × ValidChunk) → ChunkStore → Prop} (hstart : I [] st)
    (hstep : ∀ done i rest, ins = done ++ i :: rest → I done (st.insertChunks done) →
      I (done ++ [i]) (insertChunk i.1 (st.insertChunks done) i.2.toChunk).1) :
    I ins (st.insertChunks ins) := by
  suffices hrun : ∀ done rest, ins = done ++ rest → I done (st.insertChunks done) from
    hrun ins [] (append_nil ins).symm
  intro done
  induction done using reverseRecOn with
  | nil => exact fun _ _ => hstart
  | append_singleton done i ih =>
    intro rest heq
    rw [append_assoc, singleton_append] at heq
    rw [insertChunks_append]
    exact hstep done i rest heq (ih (i :: rest) heq)

structure VolatileOnly (st : ChunkStore) : Prop where
  volatile : ∀ x l, st.entry x = some l → l.lineage = .volatile
  leaky : ∀ x, st.leakyCompactions.lookup x = none
  dangling : ∀ x, st.danglingSplits.lookup x = none

theorem VolatileOnly.new (config : ChunkSplitConfig) : VolatileOnly (.new config) := by
  refine ⟨fun x l h => ?_, fun _ => rfl, fun _ => rfl⟩
  simp [entry, ChunkStore.new] at h

theorem VolatileOnly.accepts_iff (h : VolatileOnly st) (hwf : c.WellFormed) :
    st.Accepts c ↔ c.Insertable ∧ st.physical c.id = none := by
  have hroot : st.isRootChunk c.id = true := by
    unfold isRootChunk directLineage
    cases hl : st.chunksLineage.lookup c.id with
    | none => rfl
    | some l => simp [h.volatile c.id l hl]
  constructor
  · intro hacc
    obtain ⟨hc, habsent, -⟩ := sound_of_earlyReturn hwf hacc.2
    exact ⟨hc, habsent⟩
  · rintro ⟨hc, habsent⟩
    refine ⟨hroot, ?_⟩
    have h1 : c.isEmpty = false := by simpa [Chunk.isEmpty] using hc.nonempty
    have h2 : c.components.entries.isEmpty = false := by simpa using hc.components
    have h4 : st.leakyChainIsLive c.id = false := by
      simp [leakyChainIsLive, Walk.reaches, h.leaky]
    simp [earlyReturn, h1, h2, IsPhysical, habsent, h4, hc.sorted]

theorem VolatileOnly.insertChunk_eq (h : VolatileOnly st) (env : Env) (hacc : st.Accepts c)
    (hstatic : c.isStatic = true) : (insertChunk env st c).1 =
      ((st.ensureLineage c.id .volatile).insertStatic c .volatile).1.storePhysical c := by
  have hclean : st.cleanUp c = (st, []) := by
    have hroot : st.isRootFromManifest c.id = false := by
      unfold isRootFromManifest directLineage
      cases hl : st.chunksLineage.lookup c.id with
      | none => rfl
      | some l => simp [h.volatile c.id l hl]
    simp [cleanUp, hroot, h.dangling]
  have hmay : (st.ensureLineage c.id .volatile).maySplit c = false := by
    simp [maySplit, hstatic]
  unfold insertChunk
  rw [hacc.1]
  simp only [Bool.not_true, Bool.false_eq_true, if_false, insertChunkImpl, hacc.2, hclean,
    ChunkDirectLineageReport.toLineage, hmay, length_cons, length_nil, Nat.zero_add,
    Nat.lt_irrefl, insertWhole, hstatic, if_true, prependDeletions]

theorem VolatileOnly.lineage_step (h : VolatileOnly st) {st₂ : ChunkStore}
    (hover : Overwrites (st.ensureLineage c.id .volatile) c st₂) :
    VolatileOnly (st₂.storePhysical c) := by
  obtain ⟨hmaps, -, hmaps'⟩ :=
    insertLineageIfMissing_maps st.toLineageDroppingCtx c.id .volatile
  refine ⟨fun x l hl => ?_, fun x => ?_, fun x => ?_⟩
  · have hentry : (st₂.entry x).map (gain (if x = c.id then 1 else 0)) = some l :=
      (addReference_entry st₂.toLineageDroppingCtx c.id x).symm.trans hl
    obtain ⟨l₂, hl₂, rfl⟩ := Option.map_eq_some_iff.mp hentry
    obtain ⟨l₁, hl₁, hlineage, -⟩ := hover.lineage.entry x l₂ hl₂
    have hdirect := insertLineageIfMissing_directLineage st.toLineageDroppingCtx
      c.id x .volatile
    have hl₁' : (st.insertLineageIfMissing c.id .volatile).directLineage x = some l₁.lineage :=
      congrArg (Option.map _) hl₁
    show l₂.lineage = _
    rw [hlineage]
    rw [hl₁'] at hdirect
    split at hdirect
    · exact Option.some.inj hdirect
    · obtain ⟨l₀, hl₀, heq⟩ := Option.map_eq_some_iff.mp hdirect.symm
      exact heq.symm.trans (h.volatile x l₀ hl₀)
  · refine Option.eq_none_iff_forall_ne_some.mpr fun y hy => ?_
    have hy' : (st.insertLineageIfMissing c.id .volatile).leakyCompactions.lookup x = some y :=
      hover.lineage.leaky_of x y hy
    rw [hmaps, h.leaky x] at hy'
    simp at hy'
  · refine Option.eq_none_iff_forall_ne_some.mpr fun g hg => ?_
    have hg' : (st.insertLineageIfMissing c.id .volatile).danglingSplits.lookup x = some g :=
      hover.lineage.dangling_of x g hg
    rw [hmaps', h.dangling x] at hg'
    simp at hg'

theorem VolatileOnly.step (h : VolatileOnly st) (env : Env) (hwf : c.WellFormed)
    (hstatic : c.isStatic = true) : VolatileOnly (insertChunk env st c).1 := by
  by_cases hacc : st.Accepts c
  · rw [h.insertChunk_eq env hacc hstatic]
    have habsent : (st.ensureLineage c.id .volatile).physical c.id = none :=
      ((h.accepts_iff hwf).mp hacc).2
    exact h.lineage_step (insertStatic_overwrites habsent .volatile)
  · rw [insertChunk_of_not_accepts hacc]
    exact h

/-- What static insertions keep true, `cs` being the chunks inserted so far. -/
structure StaticRun (cs : List Chunk) (st : ChunkStore) : Prop where
  volatile : ∀ x l, st.entry x = some l → l.lineage = .volatile
  leaky : ∀ x, st.leakyCompactions.lookup x = none
  dangling : ∀ x, st.danglingSplits.lookup x = none
  physical : ∀ id d, st.physical id = some d → d ∈ cs ∧ d.id = id ∧ d.Insertable
  points : ∀ e k id, st.staticChunkIdsPerEntity.lookup (e, k) = some id → ∃ d r, d ∈ cs ∧
    st.physical id = some d ∧ d.entityPath = e ∧ (d.cellRowIds k).head? = some r ∧
    ∀ d' ∈ cs, d'.Insertable → d'.entityPath = e → ∀ r', (d'.cellRowIds k).head? = some r' → r' ≤ r
  covers : ∀ e k, st.staticChunkIdsPerEntity.lookup (e, k) = none → ∀ d ∈ cs, d.Insertable →
    d.entityPath = e → (d.cellRowIds k).head? = none

theorem StaticRun.new (config : ChunkSplitConfig) : StaticRun [] (.new config) := by
  refine ⟨fun x l h => ?_, fun _ => rfl, fun _ => rfl, fun id d h => ?_, fun e k id h => ?_, by simp⟩
  · simp [entry, ChunkStore.new] at h
  · simp [ChunkStore.physical, ChunkStore.new] at h
  · simp [ChunkStore.new] at h

variable {cs : List Chunk}

theorem StaticRun.volatileOnly (h : StaticRun cs st) : VolatileOnly st := ⟨h.volatile, h.leaky, h.dangling⟩

theorem StaticRun.cons (h : StaticRun cs st) (hin : c.Insertable → c ∈ cs) : StaticRun (c :: cs) st := by
  have hmem : ∀ d ∈ c :: cs, d.Insertable → d ∈ cs := by
    intro d hd hsound
    rcases mem_cons.mp hd with rfl | hd
    · exact hin hsound
    · exact hd
  refine ⟨h.volatile, h.leaky, h.dangling, fun id d hd => ?_, fun e k id hid => ?_,
    fun e k hnone d hd hsound => h.covers e k hnone d (hmem d hd hsound) hsound⟩
  · obtain ⟨h1, h2⟩ := h.physical id d hd
    exact ⟨mem_cons_of_mem _ h1, h2⟩
  · obtain ⟨d, r, h1, h2, h3, h4, h5⟩ := h.points e k id hid
    exact ⟨d, r, mem_cons_of_mem _ h1, h2, h3, h4, fun d' hd' hsound => h5 d' (hmem d' hd' hsound) hsound⟩

theorem StaticRun.stays_physical (h : StaticRun cs st) {st₂ : ChunkStore}
    (hover : Overwrites (st.ensureLineage c.id .volatile) c st₂) (habsent : st.physical c.id = none) {e : EntityPath}
    {id : ChunkId} {d : Chunk}
    (hsame : (staticUpdate (st.ensureLineage c.id .volatile) c).staticMap.lookup (e, k) = some id)
    (hd : st.physical id = some d) (hde : d.entityPath = e) : (st₂.storePhysical c).physical id = some d := by
  have hne : id ≠ c.id := by
    rintro rfl
    rw [habsent] at hd
    simp at hd
  have hkept : st₂.physical id = some d := by
    rcases hover.removes.chunks id with hst | hst
    · exact hst.trans hd
    · -- what is removed was pointed at by the same entity, and is not any more
      obtain ⟨⟨component, hold⟩, hunpointed⟩ := hover.gone id d hd hst
      obtain ⟨d', r, -, hd', hde', -⟩ := h.points _ _ _ hold
      rw [hd] at hd'
      cases hd'
      rw [← hde, hde'] at hsame
      exact absurd hsame (hunpointed k)
  exact (lookup_insert_ite _ _ _ _).trans ((if_neg hne).trans hkept)

theorem StaticRun.step (h : StaticRun cs st) (env : Env) (hwf : c.WellFormed)
    (hstatic : c.isStatic = true) (hids : ∀ d ∈ cs, d.id = c.id → d = c) :
    StaticRun (c :: cs) (insertChunk env st c).1 := by
  by_cases hacc : st.Accepts c
  · obtain ⟨hc, habsent⟩ := (h.volatileOnly.accepts_iff hwf).mp hacc
    rw [h.volatileOnly.insertChunk_eq env hacc hstatic]
    have habsent' : (st.ensureLineage c.id .volatile).physical c.id = none := habsent
    have hover := insertStatic_overwrites habsent' .volatile
    generalize ((st.ensureLineage c.id .volatile).insertStatic c .volatile).1 = st₂ at hover
    obtain ⟨hvol, hleaky, hdangling⟩ := h.volatileOnly.lineage_step hover
    have hself : (st₂.storePhysical c).physical c.id = some c :=
      (lookup_insert_ite _ _ _ _).trans (if_pos rfl)
    have hmap : (st₂.storePhysical c).staticChunkIdsPerEntity =
        (staticUpdate (st.ensureLineage c.id .volatile) c).staticMap := hover.static
    refine ⟨hvol, hleaky, hdangling, fun id d hd => ?_, fun e k id hid => ?_, fun e k hnone => ?_⟩
    · have hd' : (if id = c.id then some c else st₂.physical id) = some d :=
        (lookup_insert_ite _ _ _ _).symm.trans hd
      split at hd'
      · rename_i hid
        cases hd'
        exact ⟨mem_cons_self, hid.symm, hc⟩
      · obtain ⟨h1, h2⟩ := h.physical id d ((hover.removes.isSome_of
          (Option.isSome_of_eq_some hd')).symm.trans hd')
        exact ⟨mem_cons_of_mem _ h1, h2⟩
    · rw [hmap] at hid
      rcases staticUpdate_lookup (st.ensureLineage c.id .volatile) hc.toSound e k with
        ⟨hnew, he, r, hr, hlt⟩ | ⟨hsame, hnot⟩
      · -- the new chunk takes over, from a chunk with a smaller row id
        obtain rfl : c.id = id := Option.mem_unique hnew hid
        refine ⟨c, r, mem_cons_self, hself, he.symm, hr, fun d' hd' hsound hde' r' hr' => ?_⟩
        rcases mem_cons.mp hd' with rfl | hd'
        · exact (Option.mem_unique hr' hr).le
        · cases hcur : st.staticChunkIdsPerEntity.lookup (e, k) with
          | none =>
            rw [h.covers e k hcur d' hd' hsound hde'] at hr'
            simp at hr'
          | some cur =>
            obtain ⟨d, r₀, -, hd, -, hr₀, hmax⟩ := h.points e k cur hcur
            have hsd := (h.physical cur d hd).2.2.sorted
            have hlt' : st.staticRowId cur k < r := hlt cur hcur
            rw [staticRowId_eq hd hsd hr₀] at hlt'
            exact (hmax d' hd' hsound hde' r' hr').trans hlt'.le
      · -- nothing changes for this component, and the chunk it points at is not removed
        rw [hsame] at hid
        obtain ⟨d, r, hdmem, hd, hde, hr, hmax⟩ := h.points e k id hid
        refine ⟨d, r, mem_cons_of_mem _ hdmem, h.stays_physical hover habsent (hsame.trans hid) hd hde, hde, hr,
          fun d' hd' hsound hde' r' hr' => ?_⟩
        rcases mem_cons.mp hd' with rfl | hd'
        · by_contra hgt
          refine hnot ⟨hde'.symm, r', hr', fun cur hcur => ?_⟩
          obtain rfl : id = cur := Option.mem_unique hid hcur
          have heq : (st.ensureLineage d'.id .volatile).staticRowId id k = r :=
            staticRowId_eq hd (h.physical id d hd).2.2.sorted hr
          rw [heq]
          exact not_le.mp hgt
        · exact hmax d' hd' hsound hde' r' hr'
    · rw [hmap] at hnone
      intro d hd hsound hde
      rcases staticUpdate_lookup (st.ensureLineage c.id .volatile) hc.toSound e k with
        ⟨hnew, -, -⟩ | ⟨hsame, hnot⟩
      · rw [hnew] at hnone
        simp at hnone
      · rw [hsame] at hnone
        rcases mem_cons.mp hd with rfl | hd
        · refine Option.eq_none_iff_forall_ne_some.mpr fun r hr => hnot ⟨hde.symm, r, hr, fun id hid => ?_⟩
          rw [hnone] at hid
          simp at hid
        · exact h.covers e k hnone d hd hsound hde
  · rw [insertChunk_of_not_accepts hacc]
    rw [h.volatileOnly.accepts_iff hwf, not_and] at hacc
    refine h.cons fun hc => ?_
    obtain ⟨d, hd⟩ := Option.ne_none_iff_exists'.mp (hacc hc)
    obtain ⟨hmem, hid, -⟩ := h.physical c.id d hd
    rwa [← hids d hmem hid]

/-- The chunks a list of insertions is about: the store refuses the unsorted ones. -/
def insertedChunks (ins : List (Env × ValidChunk)) : List Chunk :=
  (ins.map (·.2.toChunk)).filter (·.isSorted)

/-- Static insertions in which an id always names the same chunk. -/
structure StaticInsertions (ins : List (Env × ValidChunk)) : Prop where
  static : ∀ i ∈ ins, i.2.isStatic = true
  ids : ∀ i ∈ ins, ∀ j ∈ ins, i.2.id = j.2.id → i.2.toChunk = j.2.toChunk

theorem staticRun_insertChunks (config : ChunkSplitConfig) (h : StaticInsertions ins) :
    StaticRun (ins.map (·.2.toChunk)).reverse ((ChunkStore.new config).insertChunks ins) := by
  refine insertChunks_induction (I := fun done st => StaticRun (done.map (·.2.toChunk)).reverse st)
    (StaticRun.new config) fun done i rest heq hrun => ?_
  have hi : i ∈ ins := by simp [heq]
  rw [map_append, map_singleton, reverse_append]
  refine hrun.step i.1 i.2.wf (h.static i hi) fun d hd hid => ?_
  obtain ⟨j, hj, rfl⟩ := mem_map.mp (mem_reverse.mp hd)
  exact h.ids j (by simp [heq, hj]) i hi hid

/-- The chunk holds the row with the greatest row id of a component of an entity. -/
def HoldsGreatest (cs : List Chunk) (e : EntityPath) (k : ComponentIdentifier) (c : Chunk) : Prop :=
  c ∈ cs ∧ c.entityPath = e ∧ ∃ r, c.HasCell k r ∧ ∀ d ∈ cs, d.entityPath = e → ∀ r', d.HasCell k r' → r' ≤ r

/-- No chunk has only greater row ids of the component than the smallest one of this chunk. -/
def HoldsGreatestLeast (cs : List Chunk) (e : EntityPath) (k : ComponentIdentifier) (c : Chunk) : Prop :=
  ∀ d ∈ cs, d.entityPath = e → (∃ r, d.HasCell k r) → ∃ r', d.HasCell k r' ∧ ∀ r, c.HasCell k r → r' ≤ r

theorem insertable_of_hasCell {c : Chunk} (hc : c ∈ insertedChunks ins) {r : RowId} (hr : c.HasCell k r) : c.Insertable := by
  obtain ⟨hmem, hsorted⟩ := mem_filter.mp hc
  obtain ⟨i, -, rfl⟩ := mem_map.mp hmem
  have hcell := mem_cellRowIds.mpr hr
  refine ⟨⟨i.2.wf, fun hnil => ?_, hsorted⟩, fun hnil => ?_⟩
  · obtain ⟨row, hrow, -⟩ := hr
    simp [Chunk.rows, hnil] at hrow
  · have : i.2.components.lookup k = none := by
      rw [lookup_eq_dlookup, hnil]
      rfl
    simp [Chunk.cellRowIds, this] at hcell

theorem exists_least {c : Chunk} (hc : c.Insertable) {r : RowId}
    (hr : c.HasCell k r) : ∃ r₀, (c.cellRowIds k).head? = some r₀ ∧ c.HasCell k r₀ ∧
      ∀ r', c.HasCell k r' → r₀ ≤ r' := by
  obtain ⟨r₀, hr₀⟩ := Option.ne_none_iff_exists'.mp fun h =>
    ne_nil_of_mem (mem_cellRowIds.mpr hr) (List.head?_eq_none_iff.mp h)
  exact ⟨r₀, hr₀, (head?_cellRowIds_iff hc.toSound).mp hr₀⟩

theorem staticRun_points (config : ChunkSplitConfig) (h : StaticInsertions ins)
    (hrows : ∀ i ∈ ins, ∀ j ∈ ins, ∀ r, r ∈ i.2.rowIds → r ∈ j.2.rowIds → i.2.id = j.2.id) {c : Chunk}
    (hc : c ∈ insertedChunks ins) {r : RowId} (hr : c.HasCell k r) :
    ((ChunkStore.new config).insertChunks ins).staticChunkIdsPerEntity.lookup (c.entityPath, k) =
      some c.id ↔ HoldsGreatestLeast (insertedChunks ins) c.entityPath k c := by
  have hrun := staticRun_insertChunks config h
  have hsound := insertable_of_hasCell hc hr
  obtain ⟨r₀, hhead, hr₀, hleast⟩ := exists_least hsound hr
  have hall : ∀ {d}, d ∈ insertedChunks ins → d ∈ (ins.map (·.2.toChunk)).reverse :=
    fun hd => mem_reverse.mpr (mem_filter.mp hd).1
  have hback : ∀ {d}, d ∈ (ins.map (·.2.toChunk)).reverse → ∃ i ∈ ins, i.2.toChunk = d :=
    fun hd => mem_map.mp (mem_reverse.mp hd)
  constructor
  · intro hlookup d hd hde hcell
    obtain ⟨d', r', hd', hphys, -, hr', hmax⟩ := hrun.points _ _ _ hlookup
    -- the id of the chunk names the chunk
    obtain rfl : d' = c := by
      obtain ⟨i, hi, rfl⟩ := hback hd'
      obtain ⟨j, hj, rfl⟩ := hback (hall hc)
      exact h.ids i hi j hj (hrun.physical _ _ hphys).2.1
    obtain ⟨r'', hr''⟩ := hcell
    obtain ⟨r₁, hhead₁, hr₁, -⟩ := exists_least (insertable_of_hasCell hd hr'') hr''
    have hle := hmax d (hall hd) (insertable_of_hasCell hd hr'') hde r₁ hhead₁
    rw [Option.mem_unique hr' hhead] at hle
    exact ⟨r₁, hr₁, fun r hr => hle.trans (hleast r hr)⟩
  · intro hgreatest
    cases hlookup : ((ChunkStore.new config).insertChunks ins).staticChunkIdsPerEntity.lookup
        (c.entityPath, k) with
    | none =>
      rw [hrun.covers _ _ hlookup c (hall hc) hsound rfl] at hhead
      simp at hhead
    | some id =>
      obtain ⟨d, r₁, hd, hphys, hde, hr₁, hmax⟩ := hrun.points _ _ _ hlookup
      obtain ⟨-, hid, hdsound⟩ := hrun.physical _ _ hphys
      have hd' : d ∈ insertedChunks ins :=
        mem_filter.mpr ⟨mem_reverse.mp hd, hdsound.sorted⟩
      obtain ⟨hcell₁, hleast₁⟩ := (head?_cellRowIds_iff hdsound.toSound).mp hr₁
      -- each of the two smallest row ids is at most the other one
      obtain ⟨r', hr', hle'⟩ := hgreatest d hd' hde ⟨r₁, hcell₁⟩
      have h1 : r₁ ≤ r₀ := (hleast₁ r' hr').trans (hle' r₀ hr₀)
      have h2 : r₀ ≤ r₁ := hmax c (hall hc) hsound rfl r₀ hhead
      have heq := le_antisymm h1 h2
      have hrowId : ∀ {c : Chunk} {r : RowId}, c.HasCell k r → r ∈ c.rowIds := by
        rintro c r ⟨row, hrow, rfl, -⟩
        obtain ⟨i, hi⟩ := mem_iff_getElem?.mp hrow
        rw [rows_getElem?] at hi
        obtain ⟨r, hr, rfl⟩ := Option.map_eq_some_iff.mp hi
        exact mem_iff_getElem?.mpr ⟨i, hr⟩
      obtain ⟨i, hi, rfl⟩ := hback hd
      obtain ⟨j, hj, rfl⟩ := hback (hall hc)
      rw [← hid, hrows i hi j hj r₀ (heq ▸ hrowId hcell₁) (hrowId hr₀)]

/-- Static data resolves by row id, for a component of an entity, exactly if the chunk with the
greatest row id also has the greatest smallest one. -/
theorem static_resolution_iff (config : ChunkSplitConfig) {ins : List (Env × ValidChunk)}
    (h : StaticInsertions ins)
    (hrows : ∀ i ∈ ins, ∀ j ∈ ins, ∀ r, r ∈ i.2.rowIds → r ∈ j.2.rowIds → i.2.id = j.2.id)
    (e : EntityPath) (k : ComponentIdentifier) :
    (∀ c, HoldsGreatest (insertedChunks ins) e k c →
      ((ChunkStore.new config).insertChunks ins).staticChunkIdsPerEntity.lookup (e, k) = some c.id) ↔
      ∀ c, HoldsGreatest (insertedChunks ins) e k c → HoldsGreatestLeast (insertedChunks ins) e k c := by
  refine forall_congr' fun c => imp_congr_right ?_
  rintro ⟨hc, rfl, r, hr, -⟩
  exact staticRun_points config h hrows hc hr

/-! ## Two static chunks -/

def staticChunk (id : ChunkId) (rowIds : List RowId) : Chunk :=
  .ofColumns id ⟨["robot"]⟩ 0 rowIds [] [(⟨"color"⟩, rowIds.map fun _ => some [])]

theorem staticChunk_sane : (staticChunk 2 [5]).sanityCheck = .ok () := rfl

def nestedInsertions : List (Env × ValidChunk) :=
  [(.countingFrom 100, ⟨staticChunk 1 [1, 10], rfl⟩), (.countingFrom 100, ⟨staticChunk 2 [5], staticChunk_sane⟩)]

def orderedInsertions : List (Env × ValidChunk) :=
  [(.countingFrom 100, ⟨staticChunk 1 [1, 2], rfl⟩), (.countingFrom 100, ⟨staticChunk 2 [5], staticChunk_sane⟩)]

theorem staticInsertions_pair {i j : Env × ValidChunk} (hi : i.2.isStatic = true)
    (hj : j.2.isStatic = true) (hids : i.2.id ≠ j.2.id) : StaticInsertions [i, j] := by
  refine ⟨?_, ?_⟩
  · simp only [mem_cons, not_mem_nil, or_false]
    rintro _ (rfl | rfl)
    · exact hi
    · exact hj
  · simp only [mem_cons, not_mem_nil, or_false]
    rintro _ (rfl | rfl) _ (rfl | rfl) hid
    · rfl
    · exact absurd hid hids
    · exact absurd hid.symm hids
    · rfl

theorem rowIds_pair {i j : Env × ValidChunk} (hdisjoint : ∀ r ∈ i.2.rowIds, r ∉ j.2.rowIds) :
    ∀ a ∈ [i, j], ∀ b ∈ [i, j], ∀ r, r ∈ a.2.rowIds → r ∈ b.2.rowIds → a.2.id = b.2.id := by
  simp only [mem_cons, not_mem_nil, or_false]
  rintro _ (rfl | rfl) _ (rfl | rfl) r ha hb
  · rfl
  · exact absurd hb (hdisjoint r ha)
  · exact absurd ha (hdisjoint r hb)
  · rfl

/-- The chunk with row ids 1 and 10 is inserted, then the one with row id 5: the component points at
the second one. -/
theorem nestedInsertions_not_resolved :
    StaticInsertions nestedInsertions ∧
      (∀ i ∈ nestedInsertions, ∀ j ∈ nestedInsertions, ∀ r, r ∈ i.2.rowIds → r ∈ j.2.rowIds → i.2.id = j.2.id) ∧
      HoldsGreatest (insertedChunks nestedInsertions) ⟨["robot"]⟩ ⟨"color"⟩ (staticChunk 1 [1, 10]) ∧
      ((ChunkStore.new ⟨0, 0, 0⟩).insertChunks nestedInsertions).staticChunkIdsPerEntity.lookup
        (⟨["robot"]⟩, ⟨"color"⟩) = some 2 := by
  refine ⟨staticInsertions_pair rfl rfl (by decide),
    rowIds_pair (show ∀ r ∈ ([1, 10] : List RowId), r ∉ ([5] : List RowId) by simp),
    ⟨mem_cons_self, rfl, 10, ?_, ?_⟩, by rfl⟩
  · exact mem_cellRowIds.mp (by decide)
  · intro d hd _ r hr
    replace hr := mem_cellRowIds.mpr hr
    have hd' : d = staticChunk 1 [1, 10] ∨ d = staticChunk 2 [5] := by
      simpa [insertedChunks, nestedInsertions] using (mem_filter.mp hd).1
    rcases hd' with rfl | rfl
    · have hr' : r = 1 ∨ r = 10 := by simpa using (show r ∈ [1, 10] from hr)
      rcases hr' with rfl | rfl <;> decide
    · have hr' : r = 5 := by simpa using (show r ∈ [5] from hr)
      subst hr'
      decide

/-- Where the greater row ids come in one chunk, the component points at it. -/
theorem orderedInsertions_resolved :
    HoldsGreatest (insertedChunks orderedInsertions) ⟨["robot"]⟩ ⟨"color"⟩ (staticChunk 2 [5]) ∧
      ((ChunkStore.new ⟨0, 0, 0⟩).insertChunks orderedInsertions).staticChunkIdsPerEntity.lookup
        (⟨["robot"]⟩, ⟨"color"⟩) = some 2 := by
  have hmem : ∀ d, d ∈ insertedChunks orderedInsertions →
      d = staticChunk 1 [1, 2] ∨ d = staticChunk 2 [5] := fun d hd => by
    simpa [insertedChunks, orderedInsertions] using (mem_filter.mp hd).1
  have h1 : ∀ r, (staticChunk 1 [1, 2]).HasCell ⟨"color"⟩ r ↔ r = 1 ∨ r = 2 := fun r => by
    rw [← mem_cellRowIds]
    exact (show r ∈ [1, 2] ↔ _ by simp)
  have h2 : ∀ r, (staticChunk 2 [5]).HasCell ⟨"color"⟩ r ↔ r = 5 := fun r => by
    rw [← mem_cellRowIds]
    exact (show r ∈ [5] ↔ _ by simp)
  have hsecond : staticChunk 2 [5] ∈ insertedChunks orderedInsertions :=
    mem_cons_of_mem _ mem_cons_self
  have hgreatest : HoldsGreatest (insertedChunks orderedInsertions) ⟨["robot"]⟩ ⟨"color"⟩
      (staticChunk 2 [5]) := by
    refine ⟨hsecond, rfl, 5, (h2 5).mpr rfl, fun d hd _ r hr => ?_⟩
    rcases hmem d hd with rfl | rfl
    · rcases (h1 r).mp hr with rfl | rfl <;> decide
    · exact ((h2 r).mp hr).le
  have hresolved := static_resolution_iff ⟨0, 0, 0⟩
    (staticInsertions_pair rfl rfl (by decide) : StaticInsertions orderedInsertions)
    (rowIds_pair (show ∀ r ∈ ([1, 2] : List RowId), r ∉ ([5] : List RowId) by simp))
    ⟨["robot"]⟩ ⟨"color"⟩
  refine ⟨hgreatest, hresolved.mpr ?_ _ hgreatest⟩
  rintro c ⟨hc, -, r, hr, hmax⟩ d hd - -
  obtain rfl : c = staticChunk 2 [5] := (hmem c hc).resolve_left fun h => by
    subst h
    have h5 := hmax (staticChunk 2 [5]) hsecond rfl 5 ((h2 5).mpr rfl)
    rcases (h1 r).mp hr with rfl | rfl <;> exact absurd h5 (by decide)
  rcases hmem d hd with rfl | rfl
  · exact ⟨1, (h1 1).mpr (.inl rfl), fun r hr => by rw [(h2 r).mp hr]; decide⟩
  · exact ⟨5, (h2 5).mpr rfl, fun r hr => ((h2 r).mp hr).ge⟩

end ChunkStore

end Dalaran
