import Dalaran.Store.GcProtection
import Dalaran.Store.Ghosts
import Dalaran.Store.RefCount
import Dalaran.Store.Volatile

/-
  Stores that insertions and collections lead to.

  Without manifests the virtual indices keep nothing that is not physical:
    1. nothing refers to a physical chunk, so a chunk that is removed loses its
       lineage entry, and with the entry its listings, in a shallow removal too
       (`removeChunkShallow_unlists`);
    2. static data points at static chunks of its entity, so an insertion
       overwrites nothing that is listed (`insertChunk_pointsAtStatic`).
  So the listings are those of the physical chunks at their own slots
  (`Grown.listedAt_iff`).
-/

namespace Dalaran

open List Option Assoc Chunk

namespace ChunkStore

open Catalog LineageDroppingCtx

variable {st st' : ChunkStore} {c : Chunk}

/-! ## Collections -/

theorem removeChunkShallow_forgets (hv : st.catalog.Sound) (htracked : TrackedUpTo (fun _ => False) st)
    (hvol : VolatileUpTo (fun _ => False) st) (hroot : st.isRootChunk c.id = true) (hphys : st.IsPhysical c.id) :
    (st.removeChunkShallow c).1.entry c.id = none := by
  have htracked' := removeChunkShallow_tracked hv htracked c
  have hshrinks := (removeChunkShallow_recedes st c).lineage
  refine eq_none_iff_forall_ne_some.mpr fun l' hl' => ?_
  obtain ⟨l, hl, hlin, hdm⟩ := hshrinks.entry c.id l' hl'
  have hcount := htracked'.count c.id l' hl'
  have hrefs := hshrinks.references_eq_zero (hvol.unreferenced c.id hphys)
  have hheld : (st.removeChunkShallow c).1.held c.id = 0 := by simp [held, removeChunkShallow_absent st c]
  rcases htracked'.zero c.id l' hl' (by omega) with hf | hdm' | ⟨s, hs, -⟩
  · exact hf
  · rw [hdm, (hvol.manifest c.id l hl).1] at hdm'
    cases hdm'
  · -- only a piece of a split has siblings, and a piece is no root
    have hdirect : st.directLineage c.id = some l.lineage := congrArg (Option.map _) hl
    rw [hlin] at hs
    unfold isRootChunk at hroot
    rw [hdirect] at hroot
    cases hlin' : l.lineage with
    | splitFrom source siblings =>
      rw [hlin'] at hroot
      cases hroot
    | compactedFrom sources | rootFromManifest isStatic => simp [hlin', ChunkDirectLineage.siblings] at hs
    | volatile => simp [hlin', ChunkDirectLineage.siblings] at hs

theorem removeChunkShallow_unlists (hv : st.catalog.Sound) (htracked : TrackedUpTo (fun _ => False) st)
    (hvol : VolatileUpTo (fun _ => False) st) (hroot : st.isRootChunk c.id = true) :
    Unlists st.catalog (st.removeChunkShallow c).1.catalog := by
  rcases removeChunkShallow_cases st c with ⟨-, heq⟩ | ⟨removed, hsome, heq⟩
  · rw [heq, removeMinRowId_catalog]
    intro id d s hd hgone
    exact absurd (hd.symm.trans hgone) (by simp)
  · have hid : removed.id = c.id := hv.id_eq _ _ hsome
    have hforgotten := removeChunkShallow_forgets hv htracked hvol hroot (isSome_of_eq_some hsome)
    have hlookup : (((st.removeMinRowId c c.id).erasePhysical c.id).dropReference removed.id).chunksLineage.lookup
        removed.id = none := by
      have hframe := (releasePhysical_frame (st.removeMinRowId c c.id) removed c.id).1
      have hentry : ((st.removeMinRowId c c.id).releasePhysical removed c.id).entry removed.id = none := by
        rw [← heq, hid]
        exact hforgotten
      rw [hframe] at hentry
      exact hentry
    rw [heq, releasePhysical_catalog, hlookup, removeMinRowId_catalog]
    intro id d s hd hgone hs hlisted
    -- the only chunk that goes is the one that is unlisted
    by_cases hidc : id = c.id
    · rw [hidc] at hd
      obtain rfl := mem_unique hd hsome
      exact hlisted.2 ⟨hidc.trans hid.symm, hs⟩
    · have hkept : (((st.catalog.unrank c.minRowId c.id).forget c.id).unlist removed).chunks id =
          st.catalog.chunks id := if_neg hidc
      exact absurd (hd.symm.trans (hkept.symm.trans hgone)) (by simp)

theorem gc_unlists (hv : st.catalog.Sound) (htracked : TrackedUpTo (fun _ => False) st)
    (hvol : VolatileUpTo (fun _ => False) st) (options : GarbageCollectionOptions) (clock : GcClock) :
    Unlists st.catalog (st.gc options clock).1.catalog := by
  obtain ⟨hroots, hdeep⟩ := gcPlan_spec hv options clock
  have hshallow := @removeShallowLoop_induct (fun st' => st'.catalog.Sound ∧
    TrackedUpTo (fun _ => False) st' ∧ VolatileUpTo (fun _ => False) st' ∧ Recedes st st' ∧
      Removes st.catalog st'.catalog ∧ Unlists st.catalog st'.catalog)
    (some clock.sweepExhausted) .garbageCollection (st.gcPlan options clock).1 0 st (fun st' d hd h => ?_)
    ⟨hv, htracked, hvol, .refl st, .refl _, .refl _⟩
  · obtain ⟨-, -, -, -, hremoves, hunlists⟩ := hshallow
    have hremoves' := (removeChunksDeep_removes (hv.removes hremoves) (st.gcPlan options clock).2
      .garbageCollection).removes
    rw [gc_eq]
    exact hunlists.trans hremoves hremoves' (removeChunksDeep_unlists (hv.removes hremoves)
      (physical_eq_of_removes hdeep hremoves) .garbageCollection)
  · obtain ⟨hv', htracked', hvol', hrec, hremoves, hunlists⟩ := h
    have hround := (removeChunkShallow_removes hv' hd).removes
    have htracked'' := removeChunkShallow_tracked hv' htracked' d
    have hroot : st'.isRootChunk d.id = true := by
      have hd' := (hroots d hd).2
      unfold isRootChunk at hd' ⊢
      cases hl' : st'.directLineage d.id with
      | none => rfl
      | some lineage =>
        obtain ⟨l', hl'', hlin'⟩ := map_eq_some_iff.mp hl'
        obtain ⟨l, hl, hlin, -⟩ := hrec.lineage.entry d.id l' hl''
        have hdirect : st.directLineage d.id = some lineage :=
          (congrArg (Option.map _) hl).trans (congrArg some (hlin.symm.trans hlin'))
        rw [hdirect] at hd'
        exact hd'
    exact ⟨hv'.removes hround, htracked'', hvol'.removes (removeChunkShallow_recedes st' d) hround htracked'',
      hrec.trans (removeChunkShallow_recedes st' d), hremoves.trans hround,
      hunlists.trans hremoves hround (removeChunkShallow_unlists hv' htracked' hvol' hroot)⟩

/-! ## Insertions -/

/-- Static data points at physical static chunks of its entity. -/
def PointsAtStatic (st : ChunkStore) : Prop :=
  ∀ e component id, st.staticChunkIdsPerEntity.lookup (e, component) = some id →
    ∃ d, st.physical id = some d ∧ d.isStatic = true ∧ d.entityPath = e

theorem Insertion.keeps_pointed {env : Env} (hv : st.catalog.Sound) (h : st.Counted)
    (hvol : VolatileUpTo (fun _ => False) st) (hpoints : st.PointsAtStatic) (hfresh : Fresh env st c)
    (hacc : st.Accepts c) (hwf : c.WellFormed) (hins : Insertion env st c st') {e : EntityPath}
    {component : ComponentIdentifier} {id : ChunkId}
    (hid : st.staticChunkIdsPerEntity.lookup (e, component) = some id)
    (hid' : st'.staticChunkIdsPerEntity.lookup (e, component) = some id) :
    st'.physical id = st.physical id := by
  obtain ⟨d, hd, hstatic, rfl⟩ := hpoints e component id hid
  obtain ⟨-, habsent, -⟩ := sound_of_earlyReturn hwf hacc.2
  have hclean := cleanUp_spec hv habsent
  have habsent' := prepared_absent hv habsent
  have hne : id ≠ c.id := by
    rintro rfl
    rw [habsent] at hd
    cases hd
  have hnew : ∀ k, id ≠ env.newId k := fun k heq => (hfresh k).1 (heq ▸ .static hid)
  -- a piece of an earlier split is no root
  have hprepared : (st.prepared c).physical id = st.physical id := by
    refine (hclean.spares id ?_).1
    rintro (heq | ⟨g, hg, hmem⟩)
    · exact hne heq
    · obtain ⟨-, -, hpieces⟩ := hvol.dangling c.id g hg
      obtain ⟨l, siblings, hl, hlin, -⟩ := hpieces id hmem
      have hroot := (h.roots _ id l hid hl).1
      rw [hlin] at hroot
      cases hroot
  have hstored : ∀ {st₁ : ChunkStore} {m : Chunk}, id ≠ m.id → (st₁.storePhysical m).physical id = st₁.physical id :=
    fun hm => (lookup_insert_ite _ _ _ _).trans (if_neg hm)
  cases hins with
  | pieces _ hsplit =>
    refine Eq.trans ?_ hprepared
    refine (@AddsAll.spares id _ _ _ (foldl_storePiece_addsAll c _ _ ((st.prepared c).recordSplit c _)) ?_).1
    intro hmem
    obtain ⟨p, hp, hpid⟩ := List.mem_map.mp hmem
    obtain ⟨j, -, -, hj⟩ := hsplit.ids.mem p hp
    exact hnew j (hpid.symm.trans hj)
  | static hcstatic =>
    have hover := insertStatic_overwrites habsent' .volatile
    rw [hstored hne]
    rcases hover.removes.chunks id with hsame | hgone
    · exact hsame.trans hprepared
    · -- what is overwritten is of the entity, and pointed at no more
      obtain ⟨⟨other, hother⟩, hunpointed⟩ := hover.gone id d (hprepared.trans hd) hgone
      obtain ⟨d', hd', -, he⟩ := hpoints _ other id (hclean.static ▸ hother)
      obtain rfl := mem_unique hd hd'
      have hlookup : (((st.prepared c).insertStatic c .volatile).1.storePhysical c).staticChunkIdsPerEntity =
          (staticUpdate (st.prepared c) c).staticMap := hover.static
      rw [hlookup, he] at hid'
      exact absurd hid' (hunpointed component)
  | temporal => exact (hstored hne).trans hprepared
  | @merged elected m hcstatic _ helected hce hconcat _ hmid _ _ =>
    obtain ⟨j, hj⟩ := hmid
    have hme : m.id ≠ elected.id := fun heq => by
      have habs := (available_prepared hv habsent hfresh j).physical
      rw [← hj, heq, helected] at habs
      cases habs
    have hide : id ≠ elected.id := by
      rintro rfl
      obtain rfl := some.inj (helected.symm.trans (hprepared.trans hd))
      rw [← isStatic_of_concatenable hconcat, hcstatic] at hstatic
      cases hstatic
    have hindexed : (((st.prepared c).indexChunk m).recordSources c elected m).physical elected.id = some elected :=
      helected
    have hremoved := removeChunksDeep_single_physical hindexed .compaction id
    rw [if_neg hide] at hremoved
    exact (hstored (hj ▸ hnew j)).trans (hremoved.trans hprepared)

theorem insertChunk_pointsAtStatic {env : Env} {c : ValidChunk} (hv : st.catalog.Sound) (h : st.Counted)
    (hvol : VolatileUpTo (fun _ => False) st) (hpoints : st.PointsAtStatic) (hfresh : Fresh env st c.toChunk) :
    (insertChunk env st c.toChunk).1.PointsAtStatic := by
  refine insertChunk_elim hpoints fun hacc => ?_
  obtain ⟨hins, -⟩ := insertChunk_cases hv c.wf hfresh hacc
  obtain ⟨hc, habsent, -⟩ := sound_of_earlyReturn c.wf hacc.2
  have hclean := cleanUp_spec hv habsent
  have habsent' := prepared_absent hv habsent
  generalize (insertChunk env st c.toChunk).1 = st' at hins ⊢
  intro e component id hid
  rcases hins.static_of hv habsent hid with ⟨rfl, hstatic⟩ | hold
  · cases hins with
    | static _ =>
      have hover := insertStatic_overwrites habsent' .volatile
      refine ⟨c.toChunk, (lookup_insert_ite _ _ _ _).trans (if_pos rfl), hstatic, ?_⟩
      have hlookup : (staticUpdate (st.prepared c.toChunk) c.toChunk).staticMap.lookup (e, component) = some c.id :=
        hover.static ▸ hid
      rcases staticUpdate_lookup (st.prepared c.toChunk) hc.toSound e component with ⟨-, he, -⟩ | ⟨hsame, -⟩
      · exact he.symm
      · -- nothing pointed at the chunk before
        rw [hsame] at hlookup
        obtain ⟨d, hd, -⟩ := hpoints e component c.id (hclean.static ▸ hlookup)
        rw [habsent] at hd
        cases hd
    | pieces htemporal | temporal htemporal => rw [htemporal] at hstatic; cases hstatic
    | merged htemporal => rw [htemporal] at hstatic; cases hstatic
  · obtain ⟨d, hd, hstatic⟩ := hpoints e component id hold
    exact ⟨d, (hins.keeps_pointed hv h hvol hpoints hfresh hacc c.wf hold hid).trans hd, hstatic⟩

/-! ## Runs -/

/-- The invariant of insertions and collections. -/
structure Settled (st : ChunkStore) : Prop where
  order : st.catalog.Consistent fun _ => True
  noGhosts : st.catalog.NoGhosts
  counted : st.Counted
  volatile : VolatileUpTo (fun _ => False) st
  points : st.PointsAtStatic

theorem new_settled (config : ChunkSplitConfig) : (ChunkStore.new config).Settled := by
  have hentry : ∀ {x l}, (ChunkStore.new config).entry x ≠ some l := by
    intro x l h
    cases h
  refine ⟨new_consistent _ config, fun id s hs => absurd hs (not_listedAt_new config id s), new_counted config,
    ⟨fun _ _ h => absurd h hentry, fun _ _ => rfl, fun _ _ _ h => absurd h hentry, fun _ _ _ h => absurd h hentry,
      fun _ _ _ _ h => absurd h hentry, fun source g hg => ?_, fun _ => 0, fun x y hxy => ?_⟩,
    fun e component id hid => ?_⟩
  · cases hg
  · cases hxy
  · cases hid

theorem Settled.gc (h : st.Settled) (options : GarbageCollectionOptions) (clock : GcClock) :
    (st.gc options clock).1.Settled := by
  have hv := h.order.sound
  obtain ⟨hremoves, hunranks⟩ := gc_removes hv options clock
  have hunlists := gc_unlists hv h.counted.tracked h.volatile options clock
  have hcounted : (st.gc options clock).1.Counted :=
    @Op.run_counted st (.gc options clock) hv h.counted trivial trivial
  refine ⟨h.order.removes hremoves hunranks, h.noGhosts.removes h.order.exact hremoves hunlists, hcounted,
    h.volatile.removes (gc_recedes st options clock) hremoves hcounted.tracked, fun e component id hid => ?_⟩
  rw [(gc_recedes st options clock).static] at hid
  obtain ⟨d, hd, hstatic, he⟩ := h.points e component id hid
  have hkept := (gc_spares hv options clock id (gc_keeps hv hd (.inl hstatic))).1
  exact ⟨d, hkept.trans hd, hstatic, he⟩

theorem Settled.insertChunk {env : Env} {c : ValidChunk} (h : st.Settled) (hfresh : Fresh env st c.toChunk) :
    (insertChunk env st c.toChunk).1.Settled := by
  have hv := h.order.sound
  refine ⟨?_, ?_, insertChunk_counted hv h.counted hfresh, insertChunk_volatile hv h.counted h.volatile hfresh,
    insertChunk_pointsAtStatic hv h.counted h.volatile h.points hfresh⟩
  · refine insertChunk_elim h.order fun hacc => ?_
    obtain ⟨cs, v, hrefined⟩ := insertChunk_refines hv c.wf hfresh hacc
    obtain ⟨hc, habsent, -⟩ := sound_of_earlyReturn c.wf hacc.2
    obtain ⟨hsound, hnodup⟩ := hrefined.stored.sound hc
    have hfits := hrefined.stored.fits (P := fun _ => True) hfresh hrefined.removes fun _ =>
      ⟨hrefined.removes.absent habsent, fun _ s hs => ?_⟩
    · exact (h.order.removes hrefined.removes hrefined.unranks).addsAll hrefined.adds
        (fun p hp => ⟨hsound p hp, hfits p hp⟩) hnodup
    · have hphys : (st.physical c.id).isSome := h.noGhosts c.id s (hrefined.removes.listed_of _ _ hs)
      rw [habsent] at hphys
      cases hphys
  · refine insertChunk_elim h.noGhosts fun hacc => ?_
    obtain ⟨cs, v, hrefined⟩ := insertChunk_refines hv c.wf hfresh hacc
    have hunlists := hrefined.unlists fun key id d hkey hd => ?_
    · exact (h.noGhosts.removes h.order.exact hrefined.removes hunlists).addsAll hrefined.adds
    · obtain ⟨d', hd', hstatic, -⟩ := h.points key.1 key.2 id hkey
      rw [mem_unique hd hd']
      exact hstatic

/-- The stores that insertions and collections lead to. -/
def Grown (st : ChunkStore) : Prop := Reachable (fun _ op => op.isInsertOrGc = true) st

theorem Grown.settled (h : st.Grown) : st.Settled := by
  induction h with
  | new config => exact new_settled config
  | @step st op _ hop hallowed ih =>
    cases op with
    | insertChunk env c => exact ih.insertChunk hop
    | gc options clock => exact ih.gc options clock
    | insertDlrManifest | removeChunksShallow | removeChunksDeep | dropEntityPath => cases hallowed

theorem Grown.listedAt_iff (h : st.Grown) {id : ChunkId} {s : Slot} :
    st.ListedAt id s ↔ ∃ c, st.physical id = some c ∧ c.OwnSlot s := by
  have hsettled := h.settled
  constructor
  · intro hs
    obtain ⟨c, hc⟩ := isSome_iff_exists.mp (hsettled.noGhosts id s hs)
    exact ⟨c, hc, (hsettled.order.exact id c hc trivial s).mp hs⟩
  · intro ⟨c, hc, hs⟩
    exact (hsettled.order.exact id c hc trivial s).mpr hs

/-! ## The index of components

  An index entry is about the cells of a chunk, if there are any: a column without
  a cell is listed under the empty range.
-/

end ChunkStore

namespace Chunk

variable {c : Chunk}

/-- Every component column of a chunk has a cell. -/
def FillsColumns (c : Chunk) : Prop :=
  ∀ component column, c.components.lookup component = some column → true ∈ column.listArray.validity

instance (c : Chunk) : Decidable c.FillsColumns :=
  decidable_of_iff (∀ column ∈ Assoc.values c.components, true ∈ column.listArray.validity) <| by
    simp only [mem_values, FillsColumns, forall_exists_index]
    exact forall_comm

def cellTimes (c : Chunk) (timeline : TimelineName) (component : ComponentIdentifier) : Set TimeInt :=
  {t | ∃ i, c.HasCellAt timeline component i t.asI64}

theorem FillsColumns.slot_tight {e : EntityPath} {timeline : TimelineName} {component : ComponentIdentifier}
    {edge : Edge} {t : TimeInt} (hwf : c.WellFormed) (h : c.FillsColumns)
    (hs : c.OwnSlot (.component e timeline component edge t)) :
    (edge = .start → IsLeast (c.cellTimes timeline component) t) ∧
      (edge = .stop → IsGreatest (c.cellTimes timeline component) t) := by
  obtain ⟨-, range, hrange, rfl⟩ := hs
  obtain ⟨tc, htc, hbind⟩ := bind_eq_some_iff.mp hrange
  obtain ⟨column, hcol, -⟩ := bind_eq_some_iff.mp hbind
  obtain ⟨i, hi⟩ := mem_iff_getElem?.mp (h component column hcol)
  have hlt : i < tc.times.length := by
    have hlt' := (List.getElem?_eq_some_iff.mp hi).1
    rw [ListArray.validity_length, hwf.cells_length _ _ hcol, ← hwf.times_length _ _ htc] at hlt'
    exact hlt'
  have hcell : c.HasCellAt timeline component i tc.times[i] := by
    refine ⟨?_, cellAt_isSome_iff.mpr ⟨column, hcol, hi⟩⟩
    unfold timeAt
    rw [htc]
    exact List.getElem?_eq_getElem hlt
  obtain ⟨lo, hi, htight, hlo, hhi, hall⟩ := componentRange_tight hwf hcell
  obtain rfl := mem_unique hrange htight
  constructor
  · rintro rfl
    exact ⟨hlo, fun t ⟨j, hj⟩ => (hall j t.asI64 hj).1⟩
  · rintro rfl
    exact ⟨hhi, fun t ⟨j, hj⟩ => (hall j t.asI64 hj).2⟩

end Chunk

namespace ChunkStore

variable {st : ChunkStore} {c : Chunk}

def StoresCells (st : ChunkStore) : Op → Prop
  | .insertChunk env c => st.Accepts c.toChunk → c.isStatic = false →
    ∀ p ∈ (st.piecesOf env c.toChunk).1, p.FillsColumns
  | .gc .. => True
  | _ => False

/-- The temporal chunks have a cell in every column. -/
def AllFilled (st : ChunkStore) : Prop :=
  ∀ id d, st.physical id = some d → d.isStatic = false → d.FillsColumns

theorem SplitOf.fillsColumns {env : Env} {k k' : Nat} {ps : List Chunk} (h : SplitOf env k k' c ps)
    (hne : c.rowIds ≠ []) (hps : ∀ p ∈ ps, p.FillsColumns) : c.FillsColumns := by
  intro component column hcol
  have hrows : c.rows ≠ [] := by
    intro hnil
    have hlen := c.rows_length
    rw [hnil] at hlen
    exact hne (length_eq_zero_iff.mp hlen.symm)
  obtain ⟨row, hrow⟩ := exists_mem_of_ne_nil _ hrows
  rw [← h.rows] at hrow
  obtain ⟨p, hp, -⟩ := mem_flatMap.mp hrow
  have hpiece := h.pieces p hp
  obtain ⟨column', hcol'⟩ := isSome_iff_exists.mp
    ((hpiece.components component).trans (isSome_of_eq_some hcol))
  obtain ⟨i, hi⟩ := mem_iff_getElem?.mp (hps p hp component column' hcol')
  have hcell : (p.cellAt i component).isSome := cellAt_isSome_iff.mpr ⟨column', hcol', hi⟩
  -- the row of the piece is a row of the chunk
  have hlt : i < p.rowIds.length := by
    have hlt' := (List.getElem?_eq_some_iff.mp hi).1
    rw [ListArray.validity_length, hpiece.wf.cells_length _ _ hcol'] at hlt'
    exact hlt'
  have hmem : p.rowAt i p.rowIds[i] ∈ c.rows := by
    rw [← h.rows]
    refine mem_flatMap.mpr ⟨p, hp, mem_iff_getElem?.mpr ⟨i, ?_⟩⟩
    rw [rows_getElem?, List.getElem?_eq_getElem hlt]
    rfl
  obtain ⟨j, hj⟩ := mem_iff_getElem?.mp hmem
  rw [rows_getElem?] at hj
  obtain ⟨r, -, hr⟩ := map_eq_some_iff.mp hj
  have hcells : c.cellAt j component = p.cellAt i component := congrFun (congrArg Row.cells hr) component
  rw [← hcells] at hcell
  obtain ⟨column'', hcol'', hvalid⟩ := cellAt_isSome_iff.mp hcell
  obtain rfl := mem_unique hcol hcol''
  exact mem_of_getElem? hvalid

theorem piecesOf_cases {env : Env} (hv : st.catalog.Sound) (hc : c.Insertable) (habsent : st.physical c.id = none)
    (hfresh : Fresh env st c) :
    (st.piecesOf env c).1 = [c] ∨ SplitOf env 0 (st.piecesOf env c).2 c (st.piecesOf env c).1 := by
  unfold piecesOf
  split
  · rename_i hmay
    simp only [maySplit, Bool.and_eq_true, Bool.not_eq_true'] at hmay
    obtain ⟨-, hcomp⟩ := hmay
    rcases splitChunks_spec env (st.prepared c) 0 hc.wf hc.nonempty hcomp (fun j =>
      descendsFromACompaction_of_available (available_prepared hv habsent hfresh j)) with h | h
    · exact .inl (congrArg Prod.fst h)
    · exact .inr h
  · exact .inl rfl

theorem insertChunk_allFilled {env : Env} {c : ValidChunk} (hv : st.catalog.Sound) (hall : st.AllFilled)
    (hfresh : Fresh env st c.toChunk) (hcells : st.StoresCells (.insertChunk env c)) :
    (insertChunk env st c.toChunk).1.AllFilled := by
  refine insertChunk_elim hall fun hacc => ?_
  obtain ⟨cs, v, hrefined⟩ := insertChunk_refines hv c.wf hfresh hacc
  obtain ⟨hc, habsent, -⟩ := sound_of_earlyReturn c.wf hacc.2
  have hfilled : c.isStatic = false → c.FillsColumns := by
    intro htemporal
    have hpieces := hcells hacc htemporal
    rcases piecesOf_cases hv hc habsent hfresh with hwhole | hsplit
    · rw [hwhole] at hpieces
      exact hpieces c.toChunk mem_cons_self
    · exact hsplit.fillsColumns hc.nonempty hpieces
  intro id d hd htemporal
  rcases hrefined.adds.chunks_of hd with ⟨hmem, -⟩ | hd
  · cases hrefined.stored with
    | pieces hstatic _ _ => exact hcells hacc hstatic d hmem
    | whole _ =>
      rw [mem_singleton.mp hmem] at htemporal ⊢
      exact hfilled htemporal
    | @merged elected m hstatic _ helected _ _ hmerge _ =>
      rw [mem_singleton.mp hmem] at htemporal ⊢
      -- the merge has the timelines of the elected chunk
      obtain ⟨name, hname⟩ := isStatic_eq_false_iff.mp htemporal
      have helectedTemporal : elected.isStatic = false :=
        isStatic_eq_false_iff.mpr ⟨name, (hmerge.timelines name).symm.trans hname⟩
      intro component column hcol
      exact hmerge.nonNull component column hcol (hall _ elected helected helectedTemporal component)
        (hfilled hstatic component)
  · have hd' := (hrefined.removes.isSome_of (isSome_of_eq_some hd)).symm.trans hd
    exact hall id d hd' htemporal

theorem Reachable.grown (h : Reachable StoresCells st) : st.Grown := by
  induction h with
  | new config => exact .new config
  | @step st op _ hop hallowed ih =>
    refine .step ih hop ?_
    cases op with
    | insertChunk env c => rfl
    | gc options clock => rfl
    | insertDlrManifest | removeChunksShallow | removeChunksDeep | dropEntityPath => cases hallowed

theorem Reachable.allFilled (h : Reachable StoresCells st) : st.AllFilled := by
  induction h with
  | new config =>
    intro id d hd
    cases hd
  | @step st op hst hop hallowed ih =>
    cases op with
    | insertChunk env c => exact insertChunk_allFilled hst.sound ih hop hallowed
    | gc options clock =>
      intro id d hd
      have hremoves := (gc_removes hst.sound options clock).1
      exact ih id d ((hremoves.isSome_of (isSome_of_eq_some hd)).symm.trans hd)
    | insertDlrManifest | removeChunksShallow | removeChunksDeep | dropEntityPath => cases hallowed

/-- Where no piece without a cell is stored, index entries are about cells: a listed chunk has the
component, and is listed at the first and the last time of the rows that have it. -/
theorem componentIndex_tight (h : Reachable StoresCells st) {id : ChunkId} (hc : st.physical id = some c)
    {e : EntityPath} {timeline : TimelineName} {component : ComponentIdentifier} {edge : Edge} {t : TimeInt}
    (hs : st.ListedAt id (.component e timeline component edge t)) :
    (c.cellTimes timeline component).Nonempty ∧ (edge = .start → IsLeast (c.cellTimes timeline component) t) ∧
      (edge = .stop → IsGreatest (c.cellTimes timeline component) t) := by
  obtain ⟨d, hd, hown⟩ := h.grown.listedAt_iff.mp hs
  obtain rfl := some.inj (hc.symm.trans hd)
  have hfilled := h.allFilled id c hc hown.isStatic
  have hwf := (h.sound.chunk id c hc).wf
  have htight := hfilled.slot_tight hwf hown
  refine ⟨?_, htight⟩
  cases edge with
  | start => exact ⟨t, (htight.1 rfl).1⟩
  | stop => exact ⟨t, (htight.2 rfl).1⟩

def unplacedChunk (id : ChunkId) (rowId : RowId) : Chunk :=
  .ofColumns id ⟨["robot"]⟩ 0 [rowId] [(⟨"frame"⟩, [.sat 0])] [(⟨"position"⟩, [none])]

def unplacedStore : ChunkStore :=
  (Op.insertChunk (.countingFrom 100) ⟨unplacedChunk 2 2, rfl⟩).run
    ((Op.insertChunk (.countingFrom 100) ⟨positionsChunk 1 [1] [-5], rfl⟩).run (.new ⟨0, 0, 0⟩))

theorem unplacedStore_grown : unplacedStore.Grown :=
  .step (.step (.new _) fresh_countingFrom rfl)
    fresh_countingFrom rfl

theorem unplacedChunk_no_cells (id : ChunkId) (rowId : RowId) (timeline : TimelineName)
    (component : ComponentIdentifier) : ¬ ((unplacedChunk id rowId).cellTimes timeline component).Nonempty := by
  intro ⟨t, i, hcell⟩
  obtain ⟨column, hcol, hvalid⟩ := cellAt_isSome_iff.mp hcell.2
  have hlookup : (unplacedChunk id rowId).components.lookup component =
      if component = ⟨"position"⟩ then some ⟨none, ListArray.ofCells [none]⟩ else none :=
    lookup_insert_ite _ _ _ _
  rw [hlookup] at hcol
  split at hcol
  · cases hcol
    cases i with
    | zero => cases hvalid
    | succ i => cases hvalid
  · cases hcol

/-- The chunk without a cell is listed to start at the last time there is. -/
theorem unplacedStore_index_loose :
    unplacedStore.Grown ∧ unplacedStore.physical 2 = some (unplacedChunk 2 2) ∧
      unplacedStore.ListedAt 2 (.component ⟨["robot"]⟩ ⟨"frame"⟩ ⟨"position"⟩ .start TimeInt.MAX) ∧
      ¬ ((unplacedChunk 2 2).cellTimes ⟨"frame"⟩ ⟨"position"⟩).Nonempty := by
  have hphysical : unplacedStore.physical 2 = some (unplacedChunk 2 2) := rfl
  refine ⟨unplacedStore_grown, hphysical, ?_, unplacedChunk_no_cells 2 2 _ _⟩
  exact unplacedStore_grown.listedAt_iff.mpr ⟨_, hphysical, rfl, AbsoluteTimeRange.EMPTY, rfl, rfl⟩

def placedStore : ChunkStore :=
  (Op.insertChunk (.countingFrom 100) ⟨positionsChunk 1 [1, 2] [7, 3], rfl⟩).run (.new ⟨0, 0, 0⟩)

/-- Its chunk is listed to start at time 3, the first of its rows. -/
theorem placedStore_index_tight :
    IsLeast ((positionsChunk 1 [1, 2] [7, 3]).cellTimes ⟨"frame"⟩ ⟨"position"⟩) ⟨.sat 3⟩ := by
  have hreach : Reachable StoresCells placedStore := by
    refine .step (.new _) fresh_countingFrom fun _ _ p hp => ?_
    have hpieces : p ∈ [positionsChunk 1 [1, 2] [7, 3]] := hp
    rw [mem_singleton.mp hpieces]
    decide
  have hphysical : placedStore.physical 1 = some (positionsChunk 1 [1, 2] [7, 3]) := rfl
  have hlisted : placedStore.ListedAt 1 (.component ⟨["robot"]⟩ ⟨"frame"⟩ ⟨"position"⟩ .start ⟨.sat 3⟩) :=
    hreach.grown.listedAt_iff.mpr ⟨_, hphysical, rfl, ⟨⟨.sat 3⟩, ⟨.sat 7⟩⟩, rfl, rfl⟩
  exact (componentIndex_tight hreach hphysical hlisted).2.1 rfl

end ChunkStore

end Dalaran
