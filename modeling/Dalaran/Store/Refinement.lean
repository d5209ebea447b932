import Dalaran.Store.Catalog

/-
  What the operations of the store do to its catalog.

  Dropping references is invisible in the catalog. Each primitive has an equation
  for its catalog, each loop one rule: an invariant of its body is an invariant of
  the loop. Both removals are removals, whatever chunks they are given, and a deep
  one of physical chunks leaves no listing of them (`removeChunksDeep_unlists`).
-/

namespace Dalaran

open List TimeIndex Chunk

namespace ChunkStore

open Catalog

variable {st st' : ChunkStore}

/-! ## Primitives -/

@[simp] theorem dropReference_catalog (st : ChunkStore) (id : ChunkId) :
    (st.dropReference id).catalog = st.catalog := rfl

@[simp] theorem ensureLineage_catalog (st : ChunkStore) (id : ChunkId) (lineage : ChunkDirectLineage) :
    (st.ensureLineage id lineage).catalog = st.catalog := rfl

@[simp] theorem removeChunkFromVirtualIndices_catalog (st : ChunkStore) (c : Chunk) :
    (st.removeChunkFromVirtualIndices c).1.catalog = st.catalog.unlist c := by
  refine Catalog.ext rfl ?_ rfl ?_
  · funext id s
    apply propext
    cases s with
    | component e tl co edge t =>
      simp only [catalog, ListedAt, removeChunkFromVirtualIndices, removeAll_listed,
        ownedBy_componentRanges, unlist]
      tauto
    | timeline e tl edge t =>
      simp only [catalog, ListedAt, removeChunkFromVirtualIndices, removeAll_listed, ownedBy_timelineRanges, unlist]
      tauto
  · funext key
    exact maxLength_removeAll _ _ key _

@[simp] theorem eraseRowId_catalog (st : ChunkStore) (r : RowId) (id : ChunkId) :
    (st.eraseRowId r id).catalog = st.catalog.unrank (some r) id := by
  refine Catalog.ext rfl rfl ?_ rfl
  funext r' id'
  apply propext
  simp only [catalog, eraseRowId, unrank, OrdSet.mem_erase, ne_eq, toLex_inj, Prod.mk.injEq, Option.some.injEq]
  rw [and_comm, @eq_comm _ r']

@[simp] theorem removeMinRowId_catalog (st : ChunkStore) (c : Chunk) (id : ChunkId) :
    (st.removeMinRowId c id).catalog = st.catalog.unrank c.minRowId id := by
  unfold removeMinRowId
  cases c.minRowId with
  | some r => exact eraseRowId_catalog st r id
  | none => simp [unrank]

@[simp] theorem erasePhysical_catalog (st : ChunkStore) (id : ChunkId) :
    (st.erasePhysical id).catalog = st.catalog.forget id := by
  refine Catalog.ext ?_ rfl rfl rfl
  funext id'
  exact Assoc.lookup_erase_ite _ _ _

theorem releasePhysical_catalog (st : ChunkStore) (removed : Chunk) (id : ChunkId) :
    (st.releasePhysical removed id).catalog =
      if (((st.erasePhysical id).dropReference removed.id).chunksLineage.lookup removed.id).isSome then
        st.catalog.forget id
      else (st.catalog.forget id).unlist removed := by
  show (unlistIfForgotten _ removed).catalog = _
  unfold unlistIfForgotten
  split
  · simp
  · simp

theorem removeChunkShallow_cases (st : ChunkStore) (c : Chunk) :
    (st.physical c.id = none ∧ (st.removeChunkShallow c).1 = st.removeMinRowId c c.id) ∨
      ∃ removed, st.physical c.id = some removed ∧
        (st.removeChunkShallow c).1 = (st.removeMinRowId c c.id).releasePhysical removed c.id := by
  have hphys : (st.removeMinRowId c c.id).physical c.id = st.physical c.id :=
    congrFun (congrArg Catalog.chunks (removeMinRowId_catalog st c c.id)) c.id
  unfold removeChunkShallow
  dsimp only
  rw [hphys]
  cases st.physical c.id with
  | none => exact .inl ⟨rfl, rfl⟩
  | some removed => exact .inr ⟨removed, rfl, rfl⟩

/-! ## Loops -/

theorem removeShallowLoop_induct {I : ChunkStore → Prop} {budget : Option (Nat → Bool)}
    {reason : ChunkDeletionReason} : ∀ {chunks : List Chunk} {n : Nat} {st : ChunkStore},
    (∀ st c, c ∈ chunks → I st → I (st.removeChunkShallow c).1) → I st →
      I (removeShallowLoop budget reason n st chunks).1
  | [], _, _, _, h => h
  | c :: chunks, n, st, hstep, h => by
    have hc := hstep st c mem_cons_self h
    have htail : ∀ st d, d ∈ chunks → I st → I (st.removeChunkShallow d).1 :=
      fun st d hd => hstep st d (mem_cons_of_mem _ hd)
    unfold removeShallowLoop
    split
    · rename_i st' hst
      rw [hst] at hc
      exact removeShallowLoop_induct htail hc
    · rename_i st' removed hst
      rw [hst] at hc
      split
      · exact hc
      · exact removeShallowLoop_induct htail hc

theorem removeDeepLoop_induct {I : ChunkStore → Prop} {reason : ChunkDeletionReason} :
    ∀ {chunks : List Chunk} {st : ChunkStore},
      (∀ st c, c ∈ chunks → I st → I (st.removeChunkFromVirtualIndices c).1) → I st →
        I (removeDeepLoop reason st chunks).1
  | [], _, _, h => h
  | c :: chunks, st, hstep, h => by
    have htail : ∀ st d, d ∈ chunks → I st → I (st.removeChunkFromVirtualIndices d).1 :=
      fun st d hd => hstep st d (mem_cons_of_mem _ hd)
    show I (removeDeepLoop reason (st.removeChunkFromVirtualIndices c).1 chunks).1
    exact removeDeepLoop_induct htail (hstep st c mem_cons_self h)

variable {chunks : List Chunk}

theorem removeChunksDeep_induct {I : ChunkStore → Prop} {st : ChunkStore} {reason : ChunkDeletionReason}
    (hshallow : ∀ st c, c ∈ chunks → I st → I (st.removeChunkShallow c).1)
    (hdeep : ∀ st c, c ∈ chunks → I st → I (st.removeChunkFromVirtualIndices c).1) (h : I st) :
    I (st.removeChunksDeep chunks reason).1 :=
  removeDeepLoop_induct hdeep (removeShallowLoop_induct hshallow h)

/-! ## Removals -/

/-- What a removal of some chunks does to the catalog. -/
structure RemovesChunks (chunks : List Chunk) (v w : Catalog) : Prop where
  removes : Removes v w
  spares : Spares (fun id => ∃ c ∈ chunks, c.id = id) v w
  unranks : (∀ c ∈ chunks, ∀ d, v.chunks c.id = some d → d.minRowId = c.minRowId) → Unranks v w

theorem RemovesChunks.refl (chunks : List Chunk) (v : Catalog) : RemovesChunks chunks v v :=
  ⟨.refl v, .refl _ v, fun _ => .refl v⟩

theorem RemovesChunks.trans {u v w : Catalog} (h₁ : RemovesChunks chunks u v)
    (h₂ : RemovesChunks chunks v w) : RemovesChunks chunks u w := by
  refine ⟨h₁.removes.trans h₂.removes, h₁.spares.trans h₂.spares, fun h => ?_⟩
  refine (h₁.unranks h).trans h₁.removes h₂.removes (h₂.unranks fun c hc d hd => h c hc d ?_)
  rw [← hd, h₁.removes.isSome_of (by rw [hd]; rfl)]

theorem removeChunkShallow_removes (hv : st.catalog.Sound) {c : Chunk}
    (hc : c ∈ chunks) : RemovesChunks chunks st.catalog (st.removeChunkShallow c).1.catalog := by
  have hne : ∀ {id}, ¬ (∃ d ∈ chunks, d.id = id) → id ≠ c.id := fun h heq => h ⟨c, hc, heq.symm⟩
  rcases removeChunkShallow_cases st c with ⟨hnone, h⟩ | ⟨removed, hsome, h⟩
  · rw [h, removeMinRowId_catalog]
    refine ⟨unrank_removes hnone, fun id hid => ⟨rfl, fun _ h => h, fun r hr => ⟨hr, ?_⟩⟩, ?_⟩
    · exact fun h => hne hid h.2
    · intro _ id d r hd hgone
      exact absurd (hd.symm.trans hgone) (by simp)
  · have hid : removed.id = c.id := hv.id_eq _ _ hsome
    have hforget : RemovesChunks chunks st.catalog ((st.catalog.unrank c.minRowId c.id).forget c.id) := by
      refine ⟨forget_unrank_removes _ _ _, fun id h => ?_, fun hmin id d r hd hgone hr hrow => ?_⟩
      · exact ⟨if_neg (hne h), fun _ h => h, fun r hr => ⟨hr, fun h' => hne h h'.2⟩⟩
      · -- the id that went is the one of `c`, which left the order under the row id of `d`
        by_cases heq : id = c.id
        · subst heq
          rw [hmin c hc d hd] at hr
          exact hrow.2 ⟨hr, rfl⟩
        · rw [show ((st.catalog.unrank c.minRowId c.id).forget c.id).chunks id = st.physical id from
            if_neg heq] at hgone
          exact absurd (hd.symm.trans hgone) (by simp)
    rw [h, releasePhysical_catalog, removeMinRowId_catalog]
    split
    · exact hforget
    · refine hforget.trans ⟨unlist_removes (if_pos hid), fun id h => ⟨rfl, fun s hs => ⟨hs, ?_⟩, fun _ h => h⟩, ?_⟩
      · exact fun h' => hne h (h'.1.trans hid)
      · intro _ id d r hd hgone
        exact absurd (hd.symm.trans hgone) (by simp)

theorem removeChunksShallow_removes (hv : st.catalog.Sound) (chunks : List Chunk)
    (budget : Option (Nat → Bool)) (reason : ChunkDeletionReason) :
    RemovesChunks chunks st.catalog (st.removeChunksShallow chunks budget reason).1.catalog :=
  removeShallowLoop_induct (I := fun st' => RemovesChunks chunks st.catalog st'.catalog)
    (fun _ _ hc h => h.trans (removeChunkShallow_removes (hv.removes h.removes) hc)) (.refl _ _)

theorem removeChunkShallow_absent (st : ChunkStore) (c : Chunk) :
    (st.removeChunkShallow c).1.physical c.id = none := by
  have hchunks : ∀ st' : ChunkStore, st'.physical c.id = st'.catalog.chunks c.id := fun _ => rfl
  rcases removeChunkShallow_cases st c with ⟨hnone, h⟩ | ⟨removed, -, h⟩
  · rw [h, hchunks, removeMinRowId_catalog]
    exact hnone
  · rw [h, hchunks, releasePhysical_catalog]
    split <;> exact if_pos rfl

theorem removeShallowLoop_absent {budget : Option (Nat → Bool)} (hbudget : ∀ n, budget.any (· n) = false)
    (reason : ChunkDeletionReason) : ∀ {chunks : List Chunk} {n : Nat} {st : ChunkStore}, st.catalog.Sound →
      ∀ c ∈ chunks, (removeShallowLoop budget reason n st chunks).1.physical c.id = none
  | [], _, _, _, c, hc => absurd hc (not_mem_nil)
  | d :: chunks, n, st, hv, c, hc => by
    have hround := removeChunkShallow_removes hv (mem_cons_self (a := d) (l := []))
    have hsound := hv.removes hround.removes
    -- the rest of the loop only removes more
    have hloop : ∃ m, (removeShallowLoop budget reason n st (d :: chunks)).1 =
        (removeShallowLoop budget reason m (st.removeChunkShallow d).1 chunks).1 := by
      rw [removeShallowLoop]
      split
      · rename_i hst
        rw [hst]
        exact ⟨n, rfl⟩
      · rename_i hst
        rw [hst, hbudget]
        exact ⟨n + 1, rfl⟩
    obtain ⟨m, hloop⟩ := hloop
    rw [hloop]
    rcases mem_cons.mp hc with rfl | hc
    · have hrest : RemovesChunks chunks (st.removeChunkShallow c).1.catalog
          (removeShallowLoop budget reason m (st.removeChunkShallow c).1 chunks).1.catalog :=
        removeShallowLoop_induct
          (I := fun st' => RemovesChunks chunks (st.removeChunkShallow c).1.catalog st'.catalog)
          (fun _ _ hd h => h.trans (removeChunkShallow_removes (hsound.removes h.removes) hd))
          (.refl _ _)
      exact hrest.removes.absent (removeChunkShallow_absent st c)
    · exact removeShallowLoop_absent hbudget reason hsound c hc

theorem removeChunksDeep_removes (hv : st.catalog.Sound) (chunks : List Chunk)
    (reason : ChunkDeletionReason) :
    RemovesChunks chunks st.catalog (st.removeChunksDeep chunks reason).1.catalog := by
  have hshallow := removeChunksShallow_removes hv chunks none reason
  have habsent : ∀ c ∈ chunks, (st.removeChunksShallow chunks none reason).1.catalog.chunks c.id = none :=
    removeShallowLoop_absent (fun _ => rfl) reason hv
  have hne : ∀ {id} {c : Chunk}, c ∈ chunks → ¬ (∃ d ∈ chunks, d.id = id) → id ≠ c.id :=
    fun hc h heq => h ⟨_, hc, heq.symm⟩
  refine (removeDeepLoop_induct (I := fun st' => RemovesChunks chunks st.catalog st'.catalog ∧
    ∀ c ∈ chunks, st'.catalog.chunks c.id = none) (fun st' c hc h => ?_) ⟨hshallow, habsent⟩).1
  rw [removeChunkFromVirtualIndices_catalog]
  refine ⟨h.1.trans ⟨unlist_removes (h.2 c hc), fun id hid => ⟨rfl, fun s hs => ⟨hs, ?_⟩, fun _ h => h⟩, ?_⟩, h.2⟩
  · exact fun h' => hne hc hid h'.1
  · intro _ id d r hd hgone
    exact absurd (hd.symm.trans hgone) (by simp)

theorem removeChunksDeep_physical (st : ChunkStore) (chunks : List Chunk) (reason : ChunkDeletionReason)
    (id : ChunkId) : (st.removeChunksDeep chunks reason).1.catalog.chunks id =
      (st.removeChunksShallow chunks none reason).1.catalog.chunks id := by
  refine removeDeepLoop_induct (I := fun st' => st'.catalog.chunks id =
    (st.removeChunksShallow chunks none reason).1.catalog.chunks id) (fun st' c _ h => ?_) rfl
  exact h

theorem removeDeepLoop_not_listed (reason : ChunkDeletionReason) : ∀ {chunks : List Chunk}
    {st : ChunkStore}, ∀ c ∈ chunks, ∀ s, c.OwnSlot s → ¬ (removeDeepLoop reason st chunks).1.catalog.listed c.id s
  | [], _, c, hc, _, _ => absurd hc (not_mem_nil)
  | d :: chunks, st, c, hc, s, hs => by
    show ¬ (removeDeepLoop reason (st.removeChunkFromVirtualIndices d).1 chunks).1.catalog.listed c.id s
    rcases mem_cons.mp hc with rfl | hc
    · refine removeDeepLoop_induct (I := fun st' => ¬ st'.catalog.listed c.id s) ?_ ?_
      · intro st' d' _ h
        rw [removeChunkFromVirtualIndices_catalog]
        exact fun h' => h h'.1
      · rw [removeChunkFromVirtualIndices_catalog]
        exact fun h => h.2 ⟨rfl, hs⟩
    · exact removeDeepLoop_not_listed reason c hc s hs

theorem removeChunksDeep_unlists (hv : st.catalog.Sound)
    (hchunks : ∀ c ∈ chunks, ∀ d, st.physical c.id = some d → d = c) (reason : ChunkDeletionReason) :
    Unlists st.catalog (st.removeChunksDeep chunks reason).1.catalog := by
  intro id d s hd hgone hs
  by_cases hmem : ∃ c ∈ chunks, c.id = id
  · obtain ⟨c, hc, rfl⟩ := hmem
    obtain rfl := hchunks c hc d hd
    exact removeDeepLoop_not_listed reason d hc s hs
  · have h := ((removeChunksDeep_removes hv chunks reason).spares id hmem).1
    exact absurd (hd.symm.trans (h.symm.trans hgone)) (by simp)

/-! ## Additions -/

theorem indexChunk_lists (st : ChunkStore) (c : Chunk) : Lists c st.catalog (st.indexChunk c).catalog := by
  refine ⟨rfl, fun id s => ?_, rfl, fun key => (le_maxLength_insertAll key _).1, fun tl co r hr => ?_⟩
  · cases s with
    | component e tl co edge t =>
      simp only [catalog, ListedAt, indexChunk, insertAll_listed, ownedBy_componentRanges]
      tauto
    | timeline e tl edge t =>
      simp only [catalog, ListedAt, indexChunk, insertAll_listed, ownedBy_timelineRanges]
      tauto
  · exact (le_maxLength_insertAll _ _).2 r (mem_componentRanges.mpr ⟨rfl, hr⟩)

@[simp] theorem storePhysical_catalog (st : ChunkStore) (c : Chunk) :
    (st.storePhysical c).catalog = st.catalog.keep c := by
  refine Catalog.ext ?_ rfl ?_ rfl
  · funext id
    exact Assoc.lookup_insert_ite _ _ _ _
  · funext r id
    apply propext
    unfold storePhysical catalog keep
    cases c.minRowId with
    | none => simp [setLineage]
    | some rowId =>
      simp only [setLineage, OrdSet.mem_insert, toLex_inj, Prod.mk.injEq, Option.some.injEq]
      rw [and_comm, @eq_comm _ r]

theorem indexChunk_storePhysical_adds (st : ChunkStore) (c : Chunk) :
    Adds c st.catalog ((st.indexChunk c).storePhysical c).catalog := by
  rw [storePhysical_catalog]
  exact (indexChunk_lists st c).adds

end ChunkStore

end Dalaran
