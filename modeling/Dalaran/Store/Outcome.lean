import Dalaran.Store.Insertion

/-
  What an insertion does to the catalog: it removes some chunks, then adds some.

  `insertChunk_refines` puts the outcomes of `insert_chunk` into the terms of
  catalogs; every invariant of catalogs then carries over to the store.
-/

namespace Dalaran

open List Option Assoc

namespace ChunkStore

open Catalog

variable {st st' : ChunkStore} {c : Chunk}

/-! ## Static data -/

/-- What the loop over the components keeps true: a component points where it did or at the new
chunk, and every overwritten chunk is physical and was pointed at. -/
structure StaticInv (st : ChunkStore) (c : Chunk) (u : StaticUpdate) : Prop where
  points : ∀ key id, u.staticMap.lookup key = some id → id = c.id ∨ st.staticChunkIdsPerEntity.lookup key = some id
  overwritten : ∀ id r, u.overwritten.lookup id = some r → ∃ d component, st.physical id = some d ∧
    d.minRowId = some r ∧ st.staticChunkIdsPerEntity.lookup (c.entityPath, component) = some id

theorem updateStatic_inv (habsent : st.physical c.id = none) {u : StaticUpdate}
    (h : StaticInv st c u) (e : ComponentIdentifier × ComponentColumn) :
    StaticInv st c (updateStatic st c u e) := by
  have hset : ∀ key id, (AList.insert (c.entityPath, e.1) c.id u.staticMap).lookup key = some id →
      id = c.id ∨ st.staticChunkIdsPerEntity.lookup key = some id := by
    intro key id hid
    rw [lookup_insert_ite] at hid
    split at hid
    · exact .inl (some.inj hid).symm
    · exact h.points key id hid
  unfold updateStatic
  split
  · exact h
  · split
    · exact h
    · split
      · exact ⟨hset, h.overwritten⟩
      · rename_i cur hcur
        split
        · refine ⟨hset, ?_⟩
          split
          · rename_i curMin hmin
            split
            · exact h.overwritten
            · intro id r hr
              rw [lookup_insert_ite] at hr
              split at hr
              · rename_i hid
                subst hid
                obtain ⟨d, hd, hdmin⟩ := bind_eq_some_iff.mp hmin
                cases hr
                -- the new chunk is not physical yet, so `id` was pointed at before
                rcases h.points _ _ hcur with rfl | hold
                · rw [habsent] at hd
                  simp at hd
                · exact ⟨d, _, hd, hdmin, hold⟩
              · exact h.overwritten id r hr
          · exact h.overwritten
        · exact h

/-- The static map and the overwritten chunks of an insertion. -/
def staticUpdate (st : ChunkStore) (c : Chunk) : StaticUpdate :=
  (Assoc.toList c.components).foldl (updateStatic st c) ⟨st.staticChunkIdsPerEntity, ∅⟩

theorem staticUpdate_inv (habsent : st.physical c.id = none) : StaticInv st c (staticUpdate st c) := by
  refine foldlRecOn (motive := StaticInv st c) _ _ ⟨fun _ _ h => .inr h, by simp⟩ ?_
  exact fun u hu e _ => updateStatic_inv habsent hu e

theorem removeOverwritten_cases (e : EntityPath) (acc : ChunkStore × List ChunkStoreDiff)
    (id : ChunkId) (r : RowId) :
    (removeOverwritten e acc (id, r)).1 = acc.1 ∨
      (acc.1.physical id = none ∧ (removeOverwritten e acc (id, r)).1 = acc.1.eraseRowId r id) ∨
      ∃ removed, acc.1.physical id = some removed ∧
        (∀ component, acc.1.staticChunkIdsPerEntity.lookup (e, component) ≠ some id) ∧
        (removeOverwritten e acc (id, r)).1 = { ((acc.1.eraseRowId r id).erasePhysical id).dropReference id
          with staticChunksStats :=
            acc.1.staticChunksStats - ChunkStoreChunkStats.fromChunk removed } := by
  unfold removeOverwritten
  dsimp only
  split
  · exact .inl rfl
  · rename_i hpoints
    have hunpointed : ∀ component, acc.1.staticChunkIdsPerEntity.lookup (e, component) ≠ some id := by
      intro component hlookup
      refine hpoints (List.any_eq_true.mpr ⟨((e, component), id), mem_toList.mpr hlookup, ?_⟩)
      simp
    cases hphys : acc.1.physical id with
    | none =>
      rw [show (acc.1.eraseRowId r id).physical id = none from hphys]
      exact .inr (.inl ⟨rfl, rfl⟩)
    | some removed =>
      rw [show (acc.1.eraseRowId r id).physical id = some removed from hphys]
      exact .inr (.inr ⟨removed, rfl, hunpointed, rfl⟩)

/-- What storing static data does before the chunk itself is stored. -/
structure Overwrites (st : ChunkStore) (c : Chunk) (st' : ChunkStore) : Prop where
  removes : Removes st.catalog st'.catalog
  unranks : Unranks st.catalog st'.catalog
  listed : st'.catalog.listed = st.catalog.listed
  gone : ∀ id d, st.physical id = some d → st'.physical id = none →
    (∃ component, st.staticChunkIdsPerEntity.lookup (c.entityPath, component) = some id) ∧
      ∀ component, (staticUpdate st c).staticMap.lookup (c.entityPath, component) ≠ some id
  lineage : LineageDroppingCtx.Shrinks st.toLineageDroppingCtx st'.toLineageDroppingCtx
  static : st'.staticChunkIdsPerEntity = (staticUpdate st c).staticMap
  config : st'.config = st.config

theorem removeOverwritten_overwrites (habsent : st.physical c.id = none)
    {acc : ChunkStore × List ChunkStoreDiff} (h : Overwrites st c acc.1) {id : ChunkId} {r : RowId}
    (hmem : (staticUpdate st c).overwritten.lookup id = some r) :
    Overwrites st c (removeOverwritten c.entityPath acc (id, r)).1 := by
  obtain ⟨d, key, hd, hmin, hkey⟩ := (staticUpdate_inv habsent).overwritten id r hmem
  rcases removeOverwritten_cases c.entityPath acc id r with
    heq | ⟨hnone, heq⟩ | ⟨removed, hsome, hunpointed, heq⟩
  · rw [heq]
    exact h
  · rw [heq]
    have hrem : Removes acc.1.catalog (acc.1.eraseRowId r id).catalog := by
      rw [eraseRowId_catalog]
      exact unrank_removes hnone
    refine ⟨h.removes.trans hrem, h.unranks.trans h.removes hrem fun id' d' r' hd' hgone => ?_, h.listed,
      h.gone, h.lineage, h.static, h.config⟩
    exact absurd (hd'.symm.trans hgone) (by simp)
  · rw [heq]
    have hcat : ({ ((acc.1.eraseRowId r id).erasePhysical id).dropReference id with
        staticChunksStats := acc.1.staticChunksStats - ChunkStoreChunkStats.fromChunk removed } :
        ChunkStore).catalog = (acc.1.catalog.unrank (some r) id).forget id := by
      rw [← eraseRowId_catalog, ← erasePhysical_catalog]
      rfl
    have hrem : Removes acc.1.catalog ((acc.1.catalog.unrank (some r) id).forget id) :=
      forget_unrank_removes _ _ _
    refine ⟨hcat ▸ h.removes.trans hrem, hcat ▸ h.unranks.trans h.removes hrem ?_, hcat ▸ h.listed, ?_,
      h.lineage.trans (LineageDroppingCtx.dropLineageReference_shrinks _ _), h.static, h.config⟩
    · intro id' d' r' hd' hgone hr' hrow
      by_cases hid : id' = id
      · subst hid
        obtain rfl : d' = d := by
          have hsome' : (acc.1.catalog.chunks id').isSome := isSome_of_eq_some hd'
          have hback := h.removes.isSome_of hsome'
          rw [hd'] at hback
          exact some.inj (hback.trans hd)
        exact hrow.2 ⟨hmin.symm.trans hr', rfl⟩
      · rw [show ((acc.1.catalog.unrank (some r) id).forget id).chunks id' = acc.1.catalog.chunks id' from
          if_neg hid] at hgone
        exact absurd (hd'.symm.trans hgone) (by simp)
    · intro id' d' hd' hgone
      by_cases hid : id' = id
      · exact hid ▸ ⟨⟨key, hkey⟩, fun component => h.static ▸ hunpointed component⟩
      · refine h.gone id' d' hd' ?_
        have hforget := (congrFun (congrArg Catalog.chunks hcat) id').symm.trans hgone
        exact (if_neg hid).symm.trans hforget

theorem insertStatic_overwrites (habsent : st.physical c.id = none) (lineage : ChunkDirectLineageReport) :
    Overwrites st c (st.insertStatic c lineage).1 := by
  refine foldlRecOn (motive := fun acc : ChunkStore × List ChunkStoreDiff => Overwrites st c acc.1) _ _ ?_ ?_
  · exact ⟨.refl _, .refl _, rfl, fun id d hd hgone => absurd (hd.symm.trans hgone) (by simp), .refl _, rfl, rfl⟩
  · rintro acc hacc ⟨id, r⟩ hmem
    exact removeOverwritten_overwrites habsent hacc (mem_toList.mp hmem)

/-! ## Outcomes as removals and additions -/

theorem storePiece_adds (c : Chunk) (pieces : List Chunk) (st : ChunkStore) (p : Chunk) :
    Adds p st.catalog (storePiece c pieces st p).catalog :=
  indexChunk_storePhysical_adds (st.ensureLineage p.id _) p

theorem foldl_storePiece_addsAll (c : Chunk) (pieces : List Chunk) : ∀ (ps : List Chunk) (st : ChunkStore),
    AddsAll ps st.catalog (ps.foldl (storePiece c pieces) st).catalog
  | [], _ => rfl
  | p :: ps, st => ⟨_, storePiece_adds c pieces st p, foldl_storePiece_addsAll c pieces ps _⟩

inductive Stored (env : Env) (st : ChunkStore) (c : Chunk) : List Chunk → Prop
  | pieces (hstatic : c.isStatic = false) (hkeeps : st.keepsId env c = false)
      (hsplit : SplitOf env 0 (st.piecesOf env c).2 c (st.piecesOf env c).1) :
      Stored env st c (st.piecesOf env c).1
  | whole (hkeeps : st.keepsId env c = true) : Stored env st c [c]
  | merged {elected m : Chunk} (hstatic : c.isStatic = false) (hkeeps : st.keepsId env c = false)
      (helected : st.physical elected.id = some elected) (hpath : c.entityPath = elected.entityPath)
      (hid : ∃ j, m.id = env.newId j) (hmerge : m.MergeOf (elected.JoinsColumns env c) elected c)
      (hsorted : m.isSorted = true) :
      Stored env st c [m]

/-- What an insertion does to the catalog: a removal, then additions. -/
structure Refined (env : Env) (st : ChunkStore) (c : Chunk) (st' : ChunkStore) (cs : List Chunk)
    (v : Catalog) : Prop where
  stored : Stored env st c cs
  removes : Removes st.catalog v
  unranks : Unranks st.catalog v
  unlists : (∀ key id d, st.staticChunkIdsPerEntity.lookup key = some id → st.physical id = some d →
    d.isStatic = true) → Unlists st.catalog v
  listed : ∀ s, v.listed c.id s ↔ st.ListedAt c.id s ∧ ¬ (st.isRootFromManifest c.id = true ∧ c.OwnSlot s)
  adds : AddsAll cs v st'.catalog

/-- A compaction lists the merge first and removes the elected chunk after that; it could as well
remove before it adds. -/
theorem recordCompaction_adds (hv : st.catalog.Sound) {elected m : Chunk}
    (helected : st.physical elected.id = some elected) (hm : m.id ≠ elected.id) :
    ∃ y, Removes st.catalog y ∧ Spares (fun id => ∃ d ∈ [elected], d.id = id) st.catalog y ∧
      Unranks st.catalog y ∧ Unlists st.catalog y ∧
      Adds m y (((st.indexChunk m).recordCompaction c elected m).storePhysical m).catalog := by
  have hlists := indexChunk_lists st m
  have hv' : ((st.indexChunk m).recordSources c elected m).catalog.Sound := ⟨hv.id_eq, hv.chunk⟩
  have hown : ∀ d ∈ [elected], ∀ d', st.physical d.id = some d' → d' = d := by
    intro d hd d' hd'
    rw [mem_singleton.mp hd] at hd' ⊢
    exact mem_unique hd' helected
  have hspared : ¬ ∃ d ∈ [elected], d.id = m.id := by
    intro hspared
    obtain ⟨d, hd, hid⟩ := hspared
    exact hm (by rw [← hid, mem_singleton.mp hd])
  have hrem : RemovesChunks [elected] (st.indexChunk m).catalog
      ((st.indexChunk m).recordCompaction c elected m).catalog :=
    removeChunksDeep_removes hv' [elected] .compaction
  have hunlists : Unlists (st.indexChunk m).catalog ((st.indexChunk m).recordCompaction c elected m).catalog :=
    removeChunksDeep_unlists hv' hown .compaction
  have hunranks := hrem.unranks fun d hd d' hd' => by rw [hown d hd d' hd']
  obtain ⟨y, hy1, hy2, hy3, hy4, hy5⟩ := hlists.adds_after_removal hrem.removes hrem.spares hspared
  refine ⟨y, hy1, hy2, hy3 hunranks, hy4 hunlists, ?_⟩
  rw [storePhysical_catalog]
  exact hy5

theorem Insertion.refines {env : Env} (hv : st.catalog.Sound) (habsent : st.physical c.id = none)
    (hfresh : Fresh env st c) (h : Insertion env st c st') : ∃ cs v, Refined env st c st' cs v := by
  have hclean := cleanUp_spec hv habsent
  have hv' : (st.prepared c).catalog.Sound := hv.removes hclean.removes
  have hremoves : Removes st.catalog (st.prepared c).catalog := hclean.removes
  have habsent' := prepared_absent hv habsent
  cases h with
  | pieces hstatic hsplit hlen =>
    refine ⟨_, _, .pieces hstatic ?_ hsplit, hremoves, hclean.unranks, fun _ => hclean.unlists, hclean.listed,
      foldl_storePiece_addsAll c _ _ ((st.prepared c).recordSplit c (st.piecesOf env c).1)⟩
    simp [keepsId, hstatic, hlen]
  | static hstatic =>
    have hover := insertStatic_overwrites habsent' .volatile
    refine ⟨[c], _, .whole (by simp [keepsId, hstatic]), hremoves.trans hover.removes,
      hclean.unranks.trans hremoves hover.removes hover.unranks, fun hst => ?_, fun s => ?_, _,
      keep_adds hstatic _, storePhysical_catalog _ c⟩
    · refine hclean.unlists.trans hremoves hover.removes fun id d s hd hgone hown => ?_
      obtain ⟨⟨component, hkey⟩, -⟩ := hover.gone id d hd hgone
      -- what is overwritten is static, so it has no slots
      have hd' : st.physical id = some d :=
        (hremoves.isSome_of (isSome_of_eq_some hd)).symm.trans hd
      exact absurd hown (Chunk.not_ownSlot_of_static (hst _ id d (hclean.static ▸ hkey) hd') s)
    · rw [hover.listed]
      exact hclean.listed s
  | temporal hstatic hkeeps =>
    exact ⟨[c], _, .whole hkeeps, hremoves, hclean.unranks, fun _ => hclean.unlists, hclean.listed, _,
      indexChunk_storePhysical_adds (st.prepared c) c, rfl⟩
  | @merged elected m hstatic hkeeps helected hne hconcat hroot hid hmerge hsorted =>
    obtain ⟨j, hj⟩ := hid
    have hm : m.id ≠ elected.id := by
      intro heq
      have habs := (available_prepared hv habsent hfresh j).physical
      rw [← hj, heq, helected] at habs
      simp at habs
    have hspared : ¬ ∃ d ∈ [elected], d.id = c.id := by
      intro hspared
      obtain ⟨d, hd, hid⟩ := hspared
      exact hne (by rw [← hid, mem_singleton.mp hd])
    obtain ⟨y, hy1, hy2, hy3, hy4, hy5⟩ := recordCompaction_adds (c := c) hv' helected hm
    have helected' : st.physical elected.id = some elected :=
      (hremoves.isSome_of (isSome_of_eq_some helected)).symm.trans helected
    refine ⟨[m], y, .merged hstatic hkeeps helected' (Chunk.entityPath_of_concatenable hconcat) ⟨j, hj⟩
      hmerge hsorted, hremoves.trans hy1, hclean.unranks.trans hremoves hy1 hy3,
      fun _ => hclean.unlists.trans hremoves hy1 hy4, fun s => ?_, _, hy5, rfl⟩
    rw [← hclean.listed s]
    exact ⟨hy1.listed_of c.id s, (hy2 c.id hspared).2.1 s⟩

theorem Stored.fits {env : Env} {cs : List Chunk} {v : Catalog} {P : Chunk → Prop}
    (h : Stored env st c cs) (hfresh : Fresh env st c) (hv : Removes st.catalog v)
    (hc : st.keepsId env c = true → Fits P c v) : ∀ p ∈ cs, Fits P p v := by
  have hnew : ∀ {p : Chunk} {j : Nat}, p.id = env.newId j → Fits P p v := by
    intro p j hid
    refine ⟨?_, fun _ s hs => absurd (Mentions.listed (hv.listed_of p.id s hs)) (hid ▸ (hfresh j).1)⟩
    rcases hv.chunks p.id with h | h
    · rw [h]
      exact eq_none_iff_forall_ne_some.mpr fun d hd => (hid ▸ (hfresh j).1) (.physical hd)
    · exact h
  intro p hp
  cases h with
  | pieces _ _ hsplit =>
    obtain ⟨j, -, -, hid⟩ := hsplit.ids.mem p hp
    exact hnew hid
  | whole hkeeps => exact mem_singleton.mp hp ▸ hc hkeeps
  | merged _ _ _ _ hid _ _ =>
    obtain ⟨j, hj⟩ := hid
    exact hnew (mem_singleton.mp hp ▸ hj)

theorem Stored.sound {env : Env} {cs : List Chunk} (h : Stored env st c cs)
    (hc : c.Insertable) : (∀ p ∈ cs, p.Sound) ∧ (cs.map (·.id)).Nodup := by
  cases h with
  | pieces _ _ hsplit => exact ⟨fun p hp => ((hsplit.pieces p hp).insertable hc).toSound, hsplit.ids.nodup⟩
  | whole hkeeps => exact ⟨fun p hp => mem_singleton.mp hp ▸ hc.toSound, nodup_singleton _⟩
  | merged _ _ _ _ _ hmerge hsorted =>
    refine ⟨fun p hp => ?_, nodup_singleton _⟩
    rw [mem_singleton.mp hp]
    exact ⟨hmerge.wf, hmerge.nonempty, hsorted⟩

theorem insertChunk_refines {env : Env} (hv : st.catalog.Sound) (hwf : c.WellFormed)
    (hfresh : Fresh env st c) (h : st.Accepts c) :
    ∃ cs v, Refined env st c (insertChunk env st c).1 cs v :=
  (insertChunk_cases hv hwf hfresh h).1.refines hv (sound_of_earlyReturn hwf h.2).2.1 hfresh

end ChunkStore

end Dalaran
