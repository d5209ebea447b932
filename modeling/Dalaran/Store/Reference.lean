import Dalaran.Store.Refinement

/-
  Lineage entries and the references between them.

  `references ctx x` is the number of times lineage entries name `x` as a split
  source or a compaction source; siblings do not count. Taking references is
  described entry by entry (`insertLineageIfMissing_entry`), dropping them by what
  it leaves alone (`Shrinks`).
-/

namespace Dalaran

open List Option Assoc

namespace LineageDroppingCtx

variable {ctx ctx' ctx'' : LineageDroppingCtx}

def entry (ctx : LineageDroppingCtx) (id : ChunkId) : Option TrackedDirectChunkLineage :=
  ctx.chunksLineage.lookup id

@[simp] theorem setEntry_entry (ctx : LineageDroppingCtx) (id x : ChunkId)
    (l : TrackedDirectChunkLineage) :
    (ctx.setEntry id l).entry x = if x = id then some l else ctx.entry x :=
  lookup_insert_ite _ _ _ _

@[simp] theorem eraseEntry_entry (ctx : LineageDroppingCtx) (id x : ChunkId) :
    (ctx.eraseEntry id).entry x = if x = id then none else ctx.entry x :=
  lookup_erase_ite _ _ _

/-- How often lineage entries refer to an id. -/
def references (ctx : LineageDroppingCtx) (id : ChunkId) : Nat :=
  Assoc.sum ctx.chunksLineage fun _ l => l.lineage.referencedChunks.count id

variable {id : ChunkId}

theorem references_pos_iff : 0 < ctx.references id ↔
    ∃ x l, ctx.entry x = some l ∧ id ∈ l.lineage.referencedChunks := by
  constructor
  · intro h
    obtain ⟨x, l, hl, hpos⟩ := exists_of_sum_pos h
    exact ⟨x, l, hl, count_pos_iff.mp hpos⟩
  · rintro ⟨x, l, hl, hmem⟩
    exact (count_pos_iff.mpr hmem).trans_le
      (le_sum (fun _ l => l.lineage.referencedChunks.count id) hl)

/-! ## Taking references -/

def gain (n : Nat) (l : TrackedDirectChunkLineage) : TrackedDirectChunkLineage :=
  { l with refCount := l.refCount + n }

theorem addReference_entry (ctx : LineageDroppingCtx) (id x : ChunkId) :
    (ctx.addReference id).entry x = (ctx.entry x).map (gain (if x = id then 1 else 0)) := by
  show (Assoc.modify ctx.chunksLineage id _).lookup x = _
  rw [lookup_modify]
  split
  · rename_i h
    subst h
    rfl
  · exact Option.map_id'.symm

theorem foldl_addReference_entry (ids : List ChunkId) (x : ChunkId) : ∀ ctx : LineageDroppingCtx,
    (ids.foldl addReference ctx).entry x = (ctx.entry x).map (gain (ids.count x)) := by
  induction ids with
  | nil => exact fun ctx => Option.map_id'.symm
  | cons id ids ih =>
    intro ctx
    rw [foldl_cons, ih, addReference_entry, Option.map_map, count_cons]
    congr 1
    funext l
    simp only [Function.comp_apply, gain, TrackedDirectChunkLineage.mk.injEq, and_true, true_and]
    by_cases h : x = id
    · subst h
      simp
      omega
    · simp [h, Ne.symm h]

theorem foldl_addReference_maps (ids : List ChunkId) : ∀ ctx : LineageDroppingCtx,
    (ids.foldl addReference ctx).leakyCompactions = ctx.leakyCompactions ∧
      (ids.foldl addReference ctx).splitOnIngest = ctx.splitOnIngest ∧
      (ids.foldl addReference ctx).danglingSplits = ctx.danglingSplits := by
  induction ids with
  | nil => exact fun ctx => ⟨rfl, rfl, rfl⟩
  | cons id ids ih => exact fun ctx => ih (ctx.addReference id)

theorem addReference_references (ctx : LineageDroppingCtx) (id x : ChunkId) :
    (ctx.addReference id).references x = ctx.references x :=
  sum_modify _ _ _ _ fun _ => rfl

theorem foldl_addReference_references (ids : List ChunkId) (x : ChunkId) :
    ∀ ctx : LineageDroppingCtx, (ids.foldl addReference ctx).references x = ctx.references x := by
  induction ids with
  | nil => exact fun _ => rfl
  | cons id ids ih =>
    intro ctx
    rw [foldl_cons, ih, addReference_references]

theorem insertLineageIfMissing_of_some (h : (ctx.entry id).isSome)
    (lineage : ChunkDirectLineage) : ctx.insertLineageIfMissing id lineage = ctx := by
  obtain ⟨l, hl⟩ := isSome_iff_exists.mp h
  unfold insertLineageIfMissing
  rw [show ctx.chunksLineage.lookup id = some l from hl]

theorem insertLineageIfMissing_entry (lineage : ChunkDirectLineage) (h : ctx.entry id = none) (x : ChunkId) :
    (ctx.insertLineageIfMissing id lineage).entry x =
      (if x = id then some ⟨lineage, 0, ctx.lineageDescendsFromManifest lineage⟩
        else ctx.entry x).map (gain (lineage.referencedChunks.count x)) := by
  unfold insertLineageIfMissing
  rw [show ctx.chunksLineage.lookup id = none from h]
  rw [foldl_addReference_entry, setEntry_entry]

theorem insertLineageIfMissing_directLineage (ctx : LineageDroppingCtx) (id x : ChunkId)
    (lineage : ChunkDirectLineage) :
    (ctx.insertLineageIfMissing id lineage).directLineage x =
      if x = id ∧ ctx.entry id = none then some lineage else ctx.directLineage x := by
  have hdirect : ∀ ctx' : LineageDroppingCtx, ctx'.directLineage x = (ctx'.entry x).map (·.lineage) :=
    fun _ => rfl
  by_cases h : ctx.entry id = none
  · rw [hdirect, insertLineageIfMissing_entry lineage h, Option.map_map]
    by_cases hx : x = id
    · simp [hx, h, gain]
    · simp only [hx, if_false, false_and, hdirect]
      rfl
  · rw [insertLineageIfMissing_of_some (isSome_iff_ne_none.mpr h)]
    simp [h]

theorem insertLineageIfMissing_references {lineage : ChunkDirectLineage} (h : ctx.entry id = none) (x : ChunkId) :
    (ctx.insertLineageIfMissing id lineage).references x = ctx.references x + lineage.referencedChunks.count x := by
  unfold insertLineageIfMissing
  rw [show ctx.chunksLineage.lookup id = none from h]
  rw [foldl_addReference_references]
  exact (sum_insert_of_none _ _ h).trans (Nat.add_comm _ _)

theorem insertLineageIfMissing_maps (ctx : LineageDroppingCtx) (id : ChunkId)
    (lineage : ChunkDirectLineage) :
    (ctx.insertLineageIfMissing id lineage).leakyCompactions = ctx.leakyCompactions ∧
      (ctx.insertLineageIfMissing id lineage).splitOnIngest = ctx.splitOnIngest ∧
      (ctx.insertLineageIfMissing id lineage).danglingSplits = ctx.danglingSplits := by
  unfold insertLineageIfMissing
  split
  · exact ⟨rfl, rfl, rfl⟩
  · exact foldl_addReference_maps _ _

/-! ## Dropping references -/

/-- What dropping references leaves alone. -/
structure Shrinks (ctx ctx' : LineageDroppingCtx) : Prop where
  entry : ∀ x l', ctx'.entry x = some l' → ∃ l, ctx.entry x = some l ∧ l'.lineage = l.lineage ∧
    l'.descendsFromManifest = l.descendsFromManifest
  leaky_of : ∀ x y, ctx'.leakyCompactions.lookup x = some y → ctx.leakyCompactions.lookup x = some y
  dangling_of : ∀ x g, ctx'.danglingSplits.lookup x = some g → ctx.danglingSplits.lookup x = some g
  kept : ∀ x, (ctx'.entry x).isSome → ctx'.leakyCompactions.lookup x = ctx.leakyCompactions.lookup x ∧
    ctx'.danglingSplits.lookup x = ctx.danglingSplits.lookup x
  gone : ∀ x, (ctx.entry x).isSome → ctx'.entry x = none →
    ctx'.leakyCompactions.lookup x = none ∧ ctx'.danglingSplits.lookup x = none
  splitOnIngest : ∀ x, x ∈ ctx'.splitOnIngest → x ∈ ctx.splitOnIngest

theorem Shrinks.refl (ctx : LineageDroppingCtx) : Shrinks ctx ctx :=
  ⟨fun _ l h => ⟨l, h, rfl, rfl⟩, fun _ _ h => h, fun _ _ h => h, fun _ _ => ⟨rfl, rfl⟩,
    fun _ h h' => by simp [h'] at h, fun _ h => h⟩

theorem Shrinks.trans (h₁ : Shrinks ctx ctx') (h₂ : Shrinks ctx' ctx'') : Shrinks ctx ctx'' := by
  refine ⟨fun x l'' hl'' => ?_, fun x y h => h₁.leaky_of x y (h₂.leaky_of x y h),
    fun x g h => h₁.dangling_of x g (h₂.dangling_of x g h), fun x hx => ?_, fun x hx hgone => ?_,
    fun x h => h₁.splitOnIngest x (h₂.splitOnIngest x h)⟩
  · obtain ⟨l', hl', h1, h2⟩ := h₂.entry x l'' hl''
    obtain ⟨l, hl, h3, h4⟩ := h₁.entry x l' hl'
    exact ⟨l, hl, h1.trans h3, h2.trans h4⟩
  · obtain ⟨l'', hl''⟩ := isSome_iff_exists.mp hx
    obtain ⟨l', hl', -⟩ := h₂.entry x l'' hl''
    have hx' : (ctx'.entry x).isSome := by rw [hl']; rfl
    exact ⟨(h₂.kept x hx).1.trans (h₁.kept x hx').1, (h₂.kept x hx).2.trans (h₁.kept x hx').2⟩
  · by_cases hx' : (ctx'.entry x).isSome
    · exact h₂.gone x hx' hgone
    · obtain ⟨hl, hd⟩ := h₁.gone x hx (by simpa using hx')
      refine ⟨?_, ?_⟩
      · by_contra h
        obtain ⟨y, hy⟩ := ne_none_iff_exists'.mp h
        rw [h₂.leaky_of x y hy] at hl
        simp at hl
      · by_contra h
        obtain ⟨g, hg⟩ := ne_none_iff_exists'.mp h
        rw [h₂.dangling_of x g hg] at hd
        simp at hd

variable {l l' : TrackedDirectChunkLineage}

theorem setEntry_shrinks (hl : ctx.entry id = some l) (h1 : l'.lineage = l.lineage)
    (h2 : l'.descendsFromManifest = l.descendsFromManifest) :
    Shrinks ctx (ctx.setEntry id l') := by
  refine ⟨fun x l'' h => ?_, fun _ _ h => h, fun _ _ h => h, fun _ _ => ⟨rfl, rfl⟩, fun x hx hgone => ?_,
    fun _ h => h⟩
  · rw [setEntry_entry] at h
    split at h
    · rename_i hx
      cases h
      exact ⟨l, hx ▸ hl, h1, h2⟩
    · exact ⟨l'', h, rfl, rfl⟩
  · rw [setEntry_entry] at hgone
    split at hgone
    · simp at hgone
    · rw [hgone] at hx
      simp at hx

theorem eraseEntry_shrinks (ctx : LineageDroppingCtx) (id : ChunkId) : Shrinks ctx (ctx.eraseEntry id) := by
  have hne : ∀ {V : Type} {m : Assoc ChunkId V} {x : ChunkId} {v : V},
      (AList.erase id m).lookup x = some v → x ≠ id ∧ m.lookup x = some v := by
    intro V m x v h
    rw [lookup_erase_ite] at h
    split at h
    · simp at h
    · exact ⟨‹_›, h⟩
  refine ⟨fun x l' h => ⟨l', (hne h).2, rfl, rfl⟩, fun _ _ h => (hne h).2, fun _ _ h => (hne h).2,
    fun x hx => ?_, fun x hx hgone => ?_, fun x h => (OrdSet.mem_erase.mp h).2⟩
  · obtain ⟨l', hl'⟩ := isSome_iff_exists.mp hx
    have hx' := (hne hl').1
    exact ⟨(lookup_erase_ite _ _ _).trans (if_neg hx'), (lookup_erase_ite _ _ _).trans (if_neg hx')⟩
  · obtain rfl : x = id := by
      by_contra hx'
      rw [eraseEntry_entry, if_neg hx'] at hgone
      rw [hgone] at hx
      simp at hx
    exact ⟨(lookup_erase_ite _ _ _).trans (if_pos rfl), (lookup_erase_ite _ _ _).trans (if_pos rfl)⟩

/-- Whether an entry that lost a reference stays: a manifest remembers it, it is still referenced,
or a sibling of its split is. -/
def stays (ctx : LineageDroppingCtx) (l : TrackedDirectChunkLineage) : Bool :=
  l.descendsFromManifest || decide (0 < l.refCount) || l.lineage.siblings.any ctx.isReferenced

theorem dropStep_of_none {op : LineageOp} (hop : op = .dropRef id ∨ op = .remove id)
    (h : ctx.entry id = none) : ctx.dropStep op = (ctx, []) := by
  have h' : ctx.chunksLineage.lookup id = none := h
  rcases hop with rfl | rfl <;> simp [dropStep, h']

theorem dropStep_dropRef (h : ctx.entry id = some l) :
    ctx.dropStep (.dropRef id) = (ctx.setEntry id (lose l), if (ctx.setEntry id (lose l)).stays (lose l) then []
      else .remove id :: (l.lineage.siblings.map LineageOp.remove).reverse) := by
  have h' : ctx.chunksLineage.lookup id = some l := h
  unfold dropStep stays
  simp only [h']
  split
  · rename_i hstay
    rw [hstay, Bool.true_or, if_pos rfl]
  · rename_i hstay
    rw [Bool.eq_false_of_not_eq_true hstay, Bool.false_or]
    split
    · rfl
    · rfl

theorem dropStep_remove (h : ctx.entry id = some l) :
    ctx.dropStep (.remove id) =
      (ctx.eraseEntry id, (l.lineage.referencedChunks.map LineageOp.dropRef).reverse) := by
  have h' : ctx.chunksLineage.lookup id = some l := h
  simp [dropStep, h']

theorem dropStep_shrinks (ctx : LineageDroppingCtx) (op : LineageOp) : Shrinks ctx (ctx.dropStep op).1 := by
  cases op with
  | dropRef id =>
    cases hl : ctx.entry id with
    | none =>
      rw [dropStep_of_none (.inl rfl) hl]
      exact .refl ctx
    | some l =>
      rw [dropStep_dropRef hl]
      exact setEntry_shrinks hl rfl rfl
  | remove id =>
    cases hl : ctx.entry id with
    | none =>
      rw [dropStep_of_none (.inr rfl) hl]
      exact .refl ctx
    | some l =>
      rw [dropStep_remove hl]
      exact eraseEntry_shrinks ctx id

theorem dropLineageReference_shrinks (ctx : LineageDroppingCtx) (id : ChunkId) :
    Shrinks ctx (ctx.dropLineageReference id) := by
  unfold dropLineageReference
  generalize ctx.dropFuel = n
  generalize [LineageOp.dropRef id] = ops
  induction n generalizing ctx ops with
  | zero => exact .refl ctx
  | succ n ih =>
    cases ops with
    | nil => exact .refl ctx
    | cons op ops => exact (dropStep_shrinks ctx op).trans (ih _ _)

end LineageDroppingCtx

namespace ChunkStore

open LineageDroppingCtx

variable {st st' st'' : ChunkStore}

/-- What a removal leaves alone besides the catalog. -/
structure Recedes (st st' : ChunkStore) : Prop where
  lineage : Shrinks st.toLineageDroppingCtx st'.toLineageDroppingCtx
  static : st'.staticChunkIdsPerEntity = st.staticChunkIdsPerEntity
  config : st'.config = st.config

theorem Recedes.refl (st : ChunkStore) : Recedes st st := ⟨.refl _, rfl, rfl⟩

theorem Recedes.trans (h₁ : Recedes st st') (h₂ : Recedes st' st'') : Recedes st st'' :=
  ⟨h₁.lineage.trans h₂.lineage, h₂.static.trans h₁.static, h₂.config.trans h₁.config⟩

theorem removeMinRowId_frame (st : ChunkStore) (c : Chunk) (id : ChunkId) :
    (st.removeMinRowId c id).toLineageDroppingCtx = st.toLineageDroppingCtx ∧
      (st.removeMinRowId c id).staticChunkIdsPerEntity = st.staticChunkIdsPerEntity ∧
      (st.removeMinRowId c id).config = st.config := by
  unfold removeMinRowId
  split <;> exact ⟨rfl, rfl, rfl⟩

theorem releasePhysical_frame (st : ChunkStore) (removed : Chunk) (id : ChunkId) :
    (st.releasePhysical removed id).toLineageDroppingCtx = st.dropLineageReference removed.id ∧
      (st.releasePhysical removed id).staticChunkIdsPerEntity = st.staticChunkIdsPerEntity ∧
      (st.releasePhysical removed id).config = st.config := by
  unfold releasePhysical unlistIfForgotten
  split <;> exact ⟨rfl, rfl, rfl⟩

theorem removeChunkShallow_recedes (st : ChunkStore) (c : Chunk) : Recedes st (st.removeChunkShallow c).1 := by
  obtain ⟨h1, h2, h3⟩ := removeMinRowId_frame st c c.id
  rcases removeChunkShallow_cases st c with ⟨-, h⟩ | ⟨removed, -, h⟩
  · rw [h]
    exact ⟨h1 ▸ .refl _, h2, h3⟩
  · rw [h]
    obtain ⟨h4, h5, h6⟩ := releasePhysical_frame (st.removeMinRowId c c.id) removed c.id
    refine ⟨?_, h5.trans h2, h6.trans h3⟩
    rw [h4, h1]
    exact dropLineageReference_shrinks _ _

theorem removeChunksShallow_recedes (st : ChunkStore) (chunks : List Chunk)
    (budget : Option (Nat → Bool)) (reason : ChunkDeletionReason) :
    Recedes st (st.removeChunksShallow chunks budget reason).1 :=
  removeShallowLoop_induct (I := Recedes st) (fun st' c _ h => h.trans (removeChunkShallow_recedes st' c))
    (.refl st)

theorem removeChunksDeep_recedes (st : ChunkStore) (chunks : List Chunk)
    (reason : ChunkDeletionReason) : Recedes st (st.removeChunksDeep chunks reason).1 :=
  removeChunksDeep_induct (I := Recedes st) (fun st' c _ h => h.trans (removeChunkShallow_recedes st' c))
    (fun _ _ _ h => h.trans ⟨.refl _, rfl, rfl⟩) (.refl st)

end ChunkStore

end Dalaran
