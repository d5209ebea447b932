import Dalaran.Store.Reference

/-
  What `insert_chunk` can do.

  A call either leaves the store alone, or it clears away what an earlier insertion
  or a manifest left of the chunk, gives it a lineage entry, and then stores the
  pieces of a split, the chunk itself as static or temporal data, or a merge of the
  chunk with an elected neighbour. `insertChunk_cases` says that there are no other
  outcomes.

  The ids a call draws are new ones: `ChunkId::new` returns no id twice, and
  none that is in use. `Fresh` is that promise, for one call on one store.
-/

namespace Dalaran

open List Bool Option Assoc Chunk LineageDroppingCtx

/-! ## Sound pieces and merges -/

variable {c p : Chunk}

theorem Chunk.PieceOf.insertable (h : p.PieceOf c) (hc : c.Insertable) : p.Insertable := by
  obtain ⟨k, hk⟩ := entries_ne_nil_iff.mp hc.components
  exact ⟨⟨h.wf, h.nonempty, h.sorted hc.sorted⟩, entries_ne_nil_iff.mpr ⟨k, by rw [h.components k, hk]⟩⟩

theorem Chunk.isStatic_eq_false_iff : c.isStatic = false ↔ ∃ name, (c.timelines.lookup name).isSome := by
  rw [← entries_ne_nil_iff]
  simp [Chunk.isStatic]

theorem Chunk.PieceOf.temporal (h : p.PieceOf c) (hc : c.isStatic = false) : p.isStatic = false := by
  obtain ⟨name, hname⟩ := isStatic_eq_false_iff.mp hc
  exact isStatic_eq_false_iff.mpr ⟨name, by rw [h.timelines name, hname]⟩

theorem Chunk.MergeOf.temporal {keeps : Prop} {m l r : Chunk} (h : m.MergeOf keeps l r) (hl : l.isStatic = false) :
    m.isStatic = false := by
  obtain ⟨name, hname⟩ := isStatic_eq_false_iff.mp hl
  exact isStatic_eq_false_iff.mpr ⟨name, by rw [h.timelines name, hname]⟩

/-! ## Splitting -/

namespace ChunkStore

/-- What any number of rounds of splitting yields. -/
structure SplitOf (env : Env) (k k' : Nat) (c : Chunk) (ps : List Chunk) : Prop where
  pieces : ∀ p ∈ ps, p.PieceOf c
  rows : ps.flatMap Chunk.rows = c.rows
  ids : NewIds env k k' ps

/-- Where the ids of some chunks come from: out of a list, or new between two counters. -/
def IdsFrom (env : Env) (k k' : Nat) (ps qs : List Chunk) : Prop :=
  ∀ q ∈ qs, (∃ p ∈ ps, q.id = p.id) ∨ ∃ j, k ≤ j ∧ j < k' ∧ q.id = env.newId j

variable {env : Env}

theorem IdsFrom.nodup_append {k₀ k k₁ k₂ : Nat} {ps qs rs : List Chunk} (hold : NewIds env k₀ k (p :: ps))
    (hqs : IdsFrom env k k₁ [p] qs) (hrs : IdsFrom env k₁ k₂ ps rs) (hk : k ≤ k₁) (hq : (qs.map (·.id)).Nodup)
    (hr : (rs.map (·.id)).Nodup) :
    ((qs ++ rs).map (·.id)).Nodup := by
  rw [map_append]
  refine List.nodup_append.mpr ⟨hq, hr, fun a ha b hb hab => ?_⟩
  obtain ⟨q, hqm, rfl⟩ := List.mem_map.mp ha
  obtain ⟨r, hrm, rfl⟩ := List.mem_map.mp hb
  have hnd := hold.nodup
  rw [map_cons, nodup_cons] at hnd
  have new_ne : ∀ {i j}, env.newId i = env.newId j → i = j := fun h => env.newId_injective h
  rcases hqs q hqm with ⟨p', hp', hqid⟩ | ⟨i, hi, hi', hqid⟩
  · obtain rfl := mem_singleton.mp hp'
    obtain ⟨i, -, hi, hpid⟩ := hold.mem p' mem_cons_self
    rcases hrs r hrm with ⟨p'', hp'', hrid⟩ | ⟨j, hj, -, hrid⟩
    · refine hnd.1 ?_
      rw [← hqid, hab, hrid]
      exact mem_map_of_mem hp''
    · have := new_ne (hpid.symm.trans (hqid.symm.trans (hab.trans hrid)))
      omega
  · rcases hrs r hrm with ⟨p'', hp'', hrid⟩ | ⟨j, hj, -, hrid⟩
    · obtain ⟨j, -, hj, hpid⟩ := hold.mem p'' (mem_cons_of_mem _ hp'')
      have := new_ne (hqid.symm.trans (hab.trans (hrid.trans hpid)))
      omega
    · have := new_ne (hqid.symm.trans (hab.trans hrid))
      omega

theorem splitChunkIfNeeded_idsFrom (env : Env) (cfg : ChunkSplitConfig) (k : Nat)
    (hwf : c.WellFormed) : k ≤ (splitChunkIfNeeded env cfg k c).2 ∧
      IdsFrom env k (splitChunkIfNeeded env cfg k c).2 [c] (splitChunkIfNeeded env cfg k c).1 ∧
      ((splitChunkIfNeeded env cfg k c).1.map (·.id)).Nodup := by
  rcases splitChunkIfNeeded_ids env cfg k hwf with h | h
  · rw [h]
    refine ⟨le_rfl, fun q hq => .inl ⟨c, mem_singleton_self c, ?_⟩, nodup_singleton _⟩
    rw [mem_singleton.mp hq]
  · exact ⟨h.le, fun q hq => .inr (h.mem q hq), h.nodup⟩

theorem splitRound_spec (env : Env) (st : ChunkStore) (c : Chunk) : ∀ {ps : List Chunk} {k : Nat},
    (∀ p ∈ ps, p.PieceOf c) → (∀ p ∈ ps, st.descendsFromACompaction p.id = false) →
      (∀ p ∈ (splitRound env st k ps).1, p.PieceOf c) ∧
      (splitRound env st k ps).1.flatMap Chunk.rows = ps.flatMap Chunk.rows ∧
      k ≤ (splitRound env st k ps).2 ∧
      IdsFrom env k (splitRound env st k ps).2 ps (splitRound env st k ps).1 ∧
      ∀ k₀, NewIds env k₀ k ps → ((splitRound env st k ps).1.map (·.id)).Nodup
  | [], k, _, _ => ⟨by simp [splitRound], rfl, le_rfl, by simp [IdsFrom, splitRound], fun _ h => h.nodup⟩
  | p :: ps, k, hps, hroot => by
    have hp := hps p mem_cons_self
    have hsplit : splitRound env st k (p :: ps) =
        ((splitChunkIfNeeded env st.config k p).1 ++
          (splitRound env st (splitChunkIfNeeded env st.config k p).2 ps).1,
         (splitRound env st (splitChunkIfNeeded env st.config k p).2 ps).2) := by
      rw [splitRound, hroot p mem_cons_self]
      rfl
    obtain ⟨hk, hfrom, hnd⟩ := splitChunkIfNeeded_idsFrom env st.config k hp.wf
    obtain ⟨hrest, hrows, hk', hfrom', hnd'⟩ := splitRound_spec env st c
      (k := (splitChunkIfNeeded env st.config k p).2)
      (fun q hq => hps q (mem_cons_of_mem _ hq)) (fun q hq => hroot q (mem_cons_of_mem _ hq))
    rw [hsplit]
    refine ⟨fun q hq => ?_, ?_, hk.trans hk', fun q hq => ?_, fun k₀ hids => ?_⟩
    · rcases mem_append.mp hq with hq | hq
      · exact (splitChunkIfNeeded_pieceOf env st.config k hp.wf hp.nonempty q hq).trans hp
      · exact hrest q hq
    · rw [flatMap_append, splitChunkIfNeeded_rows env st.config k hp.wf, hrows, flatMap_cons]
    · rcases mem_append.mp hq with hq | hq
      · rcases hfrom q hq with ⟨p', hp', hid⟩ | ⟨j, hj, hj', hid⟩
        · exact .inl ⟨p, mem_cons_self, by rw [hid, mem_singleton.mp hp']⟩
        · exact .inr ⟨j, hj, hj'.trans_le hk', hid⟩
      · rcases hfrom' q hq with ⟨p', hp', hid⟩ | ⟨j, hj, hj', hid⟩
        · exact .inl ⟨p', mem_cons_of_mem _ hp', hid⟩
        · exact .inr ⟨j, hk.trans hj, hj', hid⟩
    · have htail : NewIds env k₀ (splitChunkIfNeeded env st.config k p).2 ps :=
        ⟨hids.le.trans hk, fun q hq => by
          obtain ⟨j, hj, hj', hid⟩ := hids.mem q (mem_cons_of_mem _ hq)
          exact ⟨j, hj, hj'.trans_le hk, hid⟩,
          (nodup_cons.mp (by simpa using hids.nodup)).2⟩
      exact IdsFrom.nodup_append hids hfrom hfrom' hk hnd (hnd' k₀ htail)

theorem splitRound_splitOf (env : Env) (st : ChunkStore) {k₀ k : Nat} {ps : List Chunk}
    (hroot : ∀ j, st.descendsFromACompaction (env.newId j) = false) (h : SplitOf env k₀ k c ps) :
    SplitOf env k₀ (splitRound env st k ps).2 c (splitRound env st k ps).1 := by
  have hps : ∀ p ∈ ps, st.descendsFromACompaction p.id = false := by
    intro p hp
    obtain ⟨j, -, -, hid⟩ := h.ids.mem p hp
    rw [hid]
    exact hroot j
  obtain ⟨hpieces, hrows, hk, hfrom, hnd⟩ := splitRound_spec env st c (k := k) h.pieces hps
  refine ⟨hpieces, hrows.trans h.rows, h.ids.le.trans hk, fun q hq => ?_, hnd k₀ h.ids⟩
  rcases hfrom q hq with ⟨p, hp, hid⟩ | ⟨j, hj, hj', hid⟩
  · obtain ⟨j, hj, hj', hid'⟩ := h.ids.mem p hp
    exact ⟨j, hj, hj'.trans_le hk, hid.trans hid'⟩
  · exact ⟨j, h.ids.le.trans hj, hj', hid⟩

theorem splitLoop_spec (env : Env) (st : ChunkStore) {k₀ : Nat}
    (hroot : ∀ j, st.descendsFromACompaction (env.newId j) = false) :
    ∀ {fuel k : Nat} {ps : List Chunk}, SplitOf env k₀ k c ps →
      SplitOf env k₀ (splitLoop env st fuel k ps).2 c (splitLoop env st fuel k ps).1
  | 0, _, _, h => h
  | fuel + 1, k, ps, h => by
    have hround := splitRound_splitOf env st hroot h
    unfold splitLoop
    dsimp only
    split
    · exact hround
    · exact splitLoop_spec env st hroot hround

theorem splitLoop_whole (env : Env) (st : ChunkStore) {k : Nat} (hroot : st.descendsFromACompaction c.id = false)
    (h : splitChunkIfNeeded env st.config k c = ([c], k)) :
    ∀ fuel, splitLoop env st fuel k [c] = ([c], k)
  | 0 => rfl
  | fuel + 1 => by
    have hround : splitRound env st k [c] = ([c], k) := by
      simp [splitRound, hroot, h]
    unfold splitLoop
    simp [hround]

theorem splitChunks_spec (env : Env) (st : ChunkStore) (k : Nat) (hwf : c.WellFormed) (hne : c.rowIds ≠ [])
    (hroot : st.descendsFromACompaction c.id = false) (hnew : ∀ j, st.descendsFromACompaction (env.newId j) = false) :
    splitChunks env st k c = ([c], k) ∨ SplitOf env k (splitChunks env st k c).2 c (splitChunks env st k c).1 := by
  unfold splitChunks
  rcases splitChunkIfNeeded_ids env st.config k hwf with h | h
  · left
    rw [h]
    exact splitLoop_whole env st hroot h _
  · exact .inr (splitLoop_spec env st hnew ⟨splitChunkIfNeeded_pieceOf env st.config k hwf hne,
      splitChunkIfNeeded_rows env st.config k hwf, h⟩)

/-! ## New ids -/

/-- An id occurs somewhere in the store. -/
inductive Mentions (st : ChunkStore) (x : ChunkId) : Prop
  | physical {c : Chunk} (h : st.physical x = some c)
  | listed {s : Slot} (h : st.ListedAt x s)
  | ranked {r : RowId} (h : st.catalog.rowOrder r x)
  | static {key : EntityPath × ComponentIdentifier} (h : st.staticChunkIdsPerEntity.lookup key = some x)
  | tracked {l : TrackedDirectChunkLineage} (h : st.entry x = some l)
  | referenced {y : ChunkId} {l : TrackedDirectChunkLineage} (h : st.entry y = some l)
      (hx : x ∈ l.lineage.referencedChunks)
  | sibling {y : ChunkId} {l : TrackedDirectChunkLineage} (h : st.entry y = some l)
      (hx : x ∈ l.lineage.siblings)
  | leaky {y : ChunkId} (h : st.leakyCompactions.lookup x = some y)
  | compacted {y : ChunkId} (h : st.leakyCompactions.lookup y = some x)
  | dangling {g : List ChunkId} (h : st.danglingSplits.lookup x = some g)
  | piece {y : ChunkId} {g : List ChunkId} (h : st.danglingSplits.lookup y = some g) (hx : x ∈ g)

/-- The ids a call draws are in use nowhere. -/
def Fresh (env : Env) (st : ChunkStore) (c : Chunk) : Prop :=
  ∀ k, ¬ st.Mentions (env.newId k) ∧ env.newId k ≠ c.id

def indexIds {K : Type} (index : TimeIndex K) : List ChunkId :=
  (Assoc.values index).flatMap fun s =>
    (s.perStartTime.elems ++ s.perEndTime.elems).map fun p => (ofLex p).2

/-- Every id that occurs somewhere in the store. -/
def mentionedIds (st : ChunkStore) : List ChunkId :=
  st.physicalChunksPerChunkId.keys ++ indexIds st.temporalChunkIdsPerEntityPerComponent ++
    indexIds st.temporalChunkIdsPerEntity ++
    (st.physicalChunkIdsPerMinRowId.elems.map fun p => (ofLex p).2) ++
    Assoc.values st.staticChunkIdsPerEntity ++ st.chunksLineage.keys ++
    ((Assoc.values st.chunksLineage).flatMap fun l => l.lineage.referencedChunks ++ l.lineage.siblings) ++
    st.leakyCompactions.keys ++ Assoc.values st.leakyCompactions ++ st.danglingSplits.keys ++
    (Assoc.values st.danglingSplits).flatten

theorem mem_indexIds {K : Type} [DecidableEq K] {index : TimeIndex K} {key : K} {edge : Edge}
    {t : TimeInt} {id : ChunkId} (h : TimeIndex.Listed index key edge t id) : id ∈ indexIds index := by
  obtain ⟨s, hs, hmem⟩ := h
  refine mem_flatMap.mpr ⟨s, mem_values.mpr ⟨key, hs⟩, mem_map.mpr ⟨toLex (t, id), ?_, rfl⟩⟩
  cases edge with
  | start => exact mem_append_left _ hmem
  | stop => exact mem_append_right _ hmem

variable {st : ChunkStore} {x : ChunkId}

theorem Mentions.mem (h : st.Mentions x) : x ∈ st.mentionedIds := by
  unfold mentionedIds
  simp only [mem_append]
  cases h with
  | physical h | tracked h =>
    have := mem_keys_iff.mpr ⟨_, h⟩
    tauto
  | @listed s h =>
    cases s with
    | component e tl co edge t | timeline e tl edge t =>
      have := mem_indexIds h
      tauto
  | ranked h =>
    have : x ∈ st.physicalChunkIdsPerMinRowId.elems.map fun p => (ofLex p).2 :=
      mem_map_of_mem h
    tauto
  | static h | compacted h =>
    have := mem_values.mpr ⟨_, h⟩
    tauto
  | referenced h hx =>
    have : x ∈ (Assoc.values st.chunksLineage).flatMap
        fun l => l.lineage.referencedChunks ++ l.lineage.siblings :=
      mem_flatMap.mpr ⟨_, mem_values.mpr ⟨_, h⟩, mem_append_left _ hx⟩
    tauto
  | sibling h hx =>
    have : x ∈ (Assoc.values st.chunksLineage).flatMap
        fun l => l.lineage.referencedChunks ++ l.lineage.siblings :=
      mem_flatMap.mpr ⟨_, mem_values.mpr ⟨_, h⟩, mem_append_right _ hx⟩
    tauto
  | leaky h | dangling h =>
    have := mem_keys_iff.mpr ⟨_, h⟩
    tauto
  | piece h hx =>
    have : x ∈ (Assoc.values st.danglingSplits).flatten :=
      mem_flatten.mpr ⟨_, mem_values.mpr ⟨_, h⟩, hx⟩
    tauto

theorem fresh_countingFrom {bound : Nat} (hst : ∀ x ∈ st.mentionedIds, x < bound := by decide)
    (hc : c.id < bound := by decide) : Fresh (.countingFrom bound) st c := by
  intro k
  have hle : bound ≤ (Env.countingFrom bound).newId k := Nat.le_add_right bound k
  refine ⟨fun h => absurd (hst _ h.mem) (not_lt.mpr hle), fun h => ?_⟩
  exact absurd hc (not_lt.mpr (h ▸ hle))

variable {st' : ChunkStore}

theorem Mentions.of_recedes (hcat : Catalog.Removes st.catalog st'.catalog) (h : Recedes st st')
    (hx : st'.Mentions x) : st.Mentions x := by
  cases hx with
  | physical hc => exact .physical ((hcat.isSome_of (isSome_of_eq_some hc)).symm.trans hc)
  | listed hs => exact .listed (hcat.listed_of _ _ hs)
  | ranked hr => exact .ranked (hcat.row_of _ _ hr)
  | static hs => exact .static (h.static ▸ hs)
  | tracked hl =>
    obtain ⟨l, hl, -⟩ := h.lineage.entry _ _ hl
    exact .tracked hl
  | referenced hl hx =>
    obtain ⟨l, hl, heq, -⟩ := h.lineage.entry _ _ hl
    exact .referenced hl (heq ▸ hx)
  | sibling hl hx =>
    obtain ⟨l, hl, heq, -⟩ := h.lineage.entry _ _ hl
    exact .sibling hl (heq ▸ hx)
  | leaky hy => exact .leaky (h.lineage.leaky_of _ _ hy)
  | compacted hy => exact .compacted (h.lineage.leaky_of _ _ hy)
  | dangling hg => exact .dangling (h.lineage.dangling_of _ _ hg)
  | piece hg hx => exact .piece (h.lineage.dangling_of _ _ hg) hx

/-! ## Clearing the way -/

def withoutManifestEntries (st : ChunkStore) (c : Chunk) : ChunkStore :=
  if st.isRootFromManifest c.id then (st.removeChunksDeep [c] .virtualToPhysicalReplacement).1 else st

/-- The store after the pieces of an earlier insertion of the chunk are forgotten. -/
def withoutDangling (st : ChunkStore) (id : ChunkId) : ChunkStore :=
  st.setLineage { st.toLineageDroppingCtx with danglingSplits := AList.erase id st.danglingSplits }

theorem cleanUp_of_none (h : (st.withoutManifestEntries c).danglingSplits.lookup c.id = none) :
    (st.cleanUp c).1 = st.withoutManifestEntries c := by
  unfold withoutManifestEntries at h ⊢
  unfold cleanUp
  cases hroot : st.isRootFromManifest c.id with
  | true =>
    simp only [hroot, if_true] at h ⊢
    rw [h]
  | false =>
    simp only [hroot, false_eq_true, if_false] at h ⊢
    rw [h]

theorem cleanUp_of_some {g : List ChunkId} (h : (st.withoutManifestEntries c).danglingSplits.lookup c.id = some g) :
    (st.cleanUp c).1 = (((st.withoutManifestEntries c).withoutDangling c.id).removeChunksDeep
      (g.filterMap (st.withoutManifestEntries c).physical) .danglingSplitCleanup).1 := by
  unfold withoutManifestEntries at h ⊢
  unfold cleanUp
  cases hroot : st.isRootFromManifest c.id with
  | true =>
    simp only [hroot, if_true] at h ⊢
    rw [h]
    rfl
  | false =>
    simp only [hroot, false_eq_true, if_false] at h ⊢
    rw [h]
    rfl

theorem removeChunksDeep_of_absent (h : st.physical c.id = none)
    (reason : ChunkDeletionReason) : (st.removeChunksDeep [c] reason).1 =
      ((st.removeMinRowId c c.id).removeChunkFromVirtualIndices c).1 := by
  have hshallow : (st.removeChunksShallow [c] none reason).1 = st.removeMinRowId c c.id := by
    rcases removeChunkShallow_cases st c with ⟨-, hs⟩ | ⟨removed, hsome, -⟩
    · unfold removeChunksShallow removeShallowLoop
      split
      · rename_i st' hst
        rw [hst] at hs
        exact hs
      · rename_i st' removed hst
        rw [hst] at hs
        exact hs
    · rw [h] at hsome
      simp at hsome
  show (removeDeepLoop reason _ [c]).1 = _
  rw [hshallow]
  rfl

theorem withoutManifestEntries_frame (h : st.physical c.id = none) :
    (st.withoutManifestEntries c).toLineageDroppingCtx = st.toLineageDroppingCtx ∧
      (st.withoutManifestEntries c).staticChunkIdsPerEntity = st.staticChunkIdsPerEntity ∧
      (st.withoutManifestEntries c).config = st.config := by
  unfold withoutManifestEntries
  split
  · rw [removeChunksDeep_of_absent h]
    exact removeMinRowId_frame st c c.id
  · exact ⟨rfl, rfl, rfl⟩

theorem withoutManifestEntries_catalog (h : st.physical c.id = none) :
    (st.withoutManifestEntries c).catalog =
      if st.isRootFromManifest c.id then (st.catalog.unrank c.minRowId c.id).unlist c
      else st.catalog := by
  unfold withoutManifestEntries
  split
  · rw [removeChunksDeep_of_absent h, removeChunkFromVirtualIndices_catalog, removeMinRowId_catalog]
  · rfl

/-- What the clean-up before an insertion does. -/
structure CleanedUp (st : ChunkStore) (c : Chunk) (st' : ChunkStore) : Prop where
  removes : Catalog.Removes st.catalog st'.catalog
  unranks : Catalog.Unranks st.catalog st'.catalog
  unlists : Catalog.Unlists st.catalog st'.catalog
  spares : Catalog.Spares
    (fun id => id = c.id ∨ ∃ g, st.danglingSplits.lookup c.id = some g ∧ id ∈ g) st.catalog st'.catalog
  listed : ∀ s, st'.ListedAt c.id s ↔ st.ListedAt c.id s ∧ ¬ (st.isRootFromManifest c.id = true ∧ c.OwnSlot s)
  static : st'.staticChunkIdsPerEntity = st.staticChunkIdsPerEntity
  config : st'.config = st.config
  mentions : ∀ x, st'.Mentions x → st.Mentions x

theorem withoutManifestEntries_cleanedUp (h : st.physical c.id = none) :
    CleanedUp st c (st.withoutManifestEntries c) := by
  obtain ⟨hctx, hstatic, hconfig⟩ := withoutManifestEntries_frame h
  have hcat := withoutManifestEntries_catalog h
  have hchunks : (st.withoutManifestEntries c).catalog.chunks = st.catalog.chunks := by
    rw [hcat]
    split <;> rfl
  have hremoves : Catalog.Removes st.catalog (st.withoutManifestEntries c).catalog := by
    rw [hcat]
    split
    · exact (Catalog.unrank_removes h).trans (Catalog.unlist_removes h)
    · exact .refl _
  have hsame : ∀ {id d}, st.catalog.chunks id = some d →
      (st.withoutManifestEntries c).catalog.chunks id ≠ none := by
    intro id d hd
    rw [hchunks, hd]
    simp
  refine ⟨hremoves, fun id d r hd hgone => absurd hgone (hsame hd),
    fun id d s hd hgone => absurd hgone (hsame hd), fun id hid => ?_, fun s => ?_, hstatic, hconfig,
    fun x => Mentions.of_recedes hremoves ⟨hctx ▸ .refl _, hstatic, hconfig⟩⟩
  · have hne : id ≠ c.id := fun h => hid (.inl h)
    rw [hcat]
    split
    · exact ⟨rfl, fun s hs => ⟨hs, fun h => hne h.1⟩, fun r hr => ⟨hr, fun h => hne h.2⟩⟩
    · exact ⟨rfl, fun _ h => h, fun _ h => h⟩
  · show (st.withoutManifestEntries c).catalog.listed c.id s ↔ st.catalog.listed c.id s ∧ _
    rw [hcat]
    split
    · rename_i hroot
      simp [Catalog.unlist, Catalog.unrank, hroot]
    · rename_i hroot
      simp [hroot]

variable {id : ChunkId}

theorem Mentions.of_withoutDangling (h : (st.withoutDangling id).Mentions x) : st.Mentions x := by
  have hof : ∀ {y g}, (AList.erase id st.danglingSplits).lookup y = some g →
      st.danglingSplits.lookup y = some g := by
    intro y g hg
    rw [lookup_erase_ite] at hg
    split at hg
    · simp at hg
    · exact hg
  cases h with
  | physical h => exact .physical h
  | listed h => exact .listed h
  | ranked h => exact .ranked h
  | static h => exact .static h
  | tracked h => exact .tracked h
  | referenced h hx => exact .referenced h hx
  | sibling h hx => exact .sibling h hx
  | leaky h => exact .leaky h
  | compacted h => exact .compacted h
  | dangling h => exact .dangling (hof h)
  | piece h hx => exact .piece (hof h) hx

theorem mem_filterMap_physical (hv : st.catalog.Sound) {ids : List ChunkId} {d : Chunk}
    (hd : d ∈ ids.filterMap st.physical) : d.id ∈ ids ∧ st.physical d.id = some d := by
  obtain ⟨x, hx, hxd⟩ := mem_filterMap.mp hd
  have hid : d.id = x := hv.id_eq x d hxd
  exact ⟨hid ▸ hx, hid ▸ hxd⟩

theorem cleanUp_spec (hv : st.catalog.Sound) (h : st.physical c.id = none) : CleanedUp st c (st.cleanUp c).1 := by
  have hfirst := withoutManifestEntries_cleanedUp h
  cases hg : (st.withoutManifestEntries c).danglingSplits.lookup c.id with
  | none =>
    rw [cleanUp_of_none hg]
    exact hfirst
  | some g =>
    rw [cleanUp_of_some hg]
    have hg' : st.danglingSplits.lookup c.id = some g := by
      rw [← hg]
      exact congrArg (fun ctx => AList.lookup c.id ctx.danglingSplits)
        (withoutManifestEntries_frame h).1.symm
    -- the second removal is given physical chunks, none of them under the id of `c`
    have hv' : ((st.withoutManifestEntries c).withoutDangling c.id).catalog.Sound :=
      hv.removes hfirst.removes
    have hpieces : ∀ d ∈ g.filterMap (st.withoutManifestEntries c).physical, d.id ∈ g ∧
        (st.withoutManifestEntries c).physical d.id = some d := fun d => mem_filterMap_physical hv'
    have habsent : (st.withoutManifestEntries c).physical c.id = none :=
      hfirst.removes.absent h
    have hrem := removeChunksDeep_removes hv' (g.filterMap (st.withoutManifestEntries c).physical)
      .danglingSplitCleanup
    have hown : ∀ d ∈ g.filterMap (st.withoutManifestEntries c).physical, ∀ d',
        (st.withoutManifestEntries c).physical d.id = some d' → d' = d := by
      intro d hd d' hd'
      rw [(hpieces d hd).2] at hd'
      exact (some.inj hd').symm
    have hunlists := removeChunksDeep_unlists hv' hown .danglingSplitCleanup
    have hunranks := hrem.unranks fun d hd d' hd' => by rw [hown d hd d' hd']
    have hrec := removeChunksDeep_recedes ((st.withoutManifestEntries c).withoutDangling c.id)
      (g.filterMap (st.withoutManifestEntries c).physical) .danglingSplitCleanup
    have hspare : ∀ id, ¬ (id = c.id ∨ ∃ g', st.danglingSplits.lookup c.id = some g' ∧ id ∈ g') →
        ¬ ∃ d ∈ g.filterMap (st.withoutManifestEntries c).physical, d.id = id := by
      rintro id hid ⟨d, hd, rfl⟩
      exact hid (.inr ⟨g, hg', (hpieces d hd).1⟩)
    have hc : ¬ ∃ d ∈ g.filterMap (st.withoutManifestEntries c).physical, d.id = c.id := by
      rintro ⟨d, hd, hid⟩
      have hd' := (hpieces d hd).2
      rw [hid, habsent] at hd'
      simp at hd'
    refine ⟨hfirst.removes.trans hrem.removes, hfirst.unranks.trans hfirst.removes hrem.removes hunranks,
      hfirst.unlists.trans hfirst.removes hrem.removes hunlists,
      hfirst.spares.trans fun id hid => hrem.spares id (hspare id hid), fun s => ?_,
      hrec.static.trans hfirst.static, hrec.config.trans hfirst.config, fun x hx => ?_⟩
    · rw [← hfirst.listed s]
      exact ⟨hrem.removes.listed_of c.id s, (hrem.spares c.id hc).2.1 s⟩
    · exact hfirst.mentions x (Mentions.of_recedes hrem.removes hrec hx).of_withoutDangling

theorem cleanUp_lineage (habsent : st.physical c.id = none) :
    (∀ x l, (st.cleanUp c).1.entry x = some l → ∃ l₀, st.entry x = some l₀ ∧ l.lineage = l₀.lineage ∧
      l.descendsFromManifest = l₀.descendsFromManifest) ∧
    (∀ x y, (st.cleanUp c).1.leakyCompactions.lookup x = some y → st.leakyCompactions.lookup x = some y) ∧
    ∀ x g, (st.cleanUp c).1.danglingSplits.lookup x = some g → st.danglingSplits.lookup x = some g := by
  have hctx := (withoutManifestEntries_frame habsent).1
  cases hg : (st.withoutManifestEntries c).danglingSplits.lookup c.id with
  | none =>
    rw [cleanUp_of_none hg, hctx]
    exact ⟨fun _ l h => ⟨l, h, rfl, rfl⟩, fun _ _ h => h, fun _ _ h => h⟩
  | some pieces =>
    rw [cleanUp_of_some hg, ← hctx]
    have h := (removeChunksDeep_recedes ((st.withoutManifestEntries c).withoutDangling c.id)
      (pieces.filterMap (st.withoutManifestEntries c).physical) .danglingSplitCleanup).lineage
    refine ⟨h.entry, h.leaky_of, fun x g hx => ?_⟩
    have hx' : (AList.erase c.id (st.withoutManifestEntries c).danglingSplits).lookup x = some g :=
      h.dangling_of x g hx
    rw [lookup_erase_ite] at hx'
    split at hx'
    · cases hx'
    · exact hx'

/-! ## Storing the pieces of a split -/

/-- Store one piece of a split: its lineage names the chunk it is cut from and the other pieces. -/
def storePiece (c : Chunk) (pieces : List Chunk) (st : ChunkStore) (p : Chunk) : ChunkStore :=
  ((st.ensureLineage p.id
    (.splitFrom c.id ((pieces.filter fun q => q.id ≠ p.id).map (·.id)))).indexChunk p).storePhysical p

/-- Nothing is known about an id that an insertion would look at first. -/
structure Available (st : ChunkStore) (x : ChunkId) : Prop where
  physical : st.physical x = none
  entry : st.entry x = none
  leaky : st.leakyCompactions.lookup x = none
  dangling : st.danglingSplits.lookup x = none

theorem Available.of_not_mentions (h : ¬ st.Mentions x) : Available st x := by
  refine ⟨?_, ?_, ?_, ?_⟩
  · exact eq_none_iff_forall_ne_some.mpr fun _ h' => h (.physical h')
  · exact eq_none_iff_forall_ne_some.mpr fun _ h' => h (.tracked h')
  · exact eq_none_iff_forall_ne_some.mpr fun _ h' => h (.leaky h')
  · exact eq_none_iff_forall_ne_some.mpr fun _ h' => h (.dangling h')

theorem Available.ensureLineage (h : Available st x) (hne : x ≠ id)
    (lineage : ChunkDirectLineage) : Available (st.ensureLineage id lineage) x := by
  obtain ⟨h1, -, h3⟩ := insertLineageIfMissing_maps st.toLineageDroppingCtx id lineage
  refine ⟨h.physical, ?_, ?_, ?_⟩
  · show (st.insertLineageIfMissing id lineage).entry x = none
    cases hid : st.entry id with
    | none => rw [insertLineageIfMissing_entry lineage hid, if_neg hne, h.entry]; rfl
    | some l => rw [insertLineageIfMissing_of_some (by rw [hid]; rfl), h.entry]
  · show (st.insertLineageIfMissing id lineage).leakyCompactions.lookup x = none
    rw [h1, h.leaky]
  · show (st.insertLineageIfMissing id lineage).danglingSplits.lookup x = none
    rw [h3, h.dangling]

theorem Available.storePhysical (h : Available st x) (hne : x ≠ c.id) : Available (st.storePhysical c) x := by
  refine ⟨?_, ?_, h.leaky, h.dangling⟩
  · exact (lookup_insert_ite _ _ _ _).trans ((if_neg hne).trans h.physical)
  · exact (addReference_entry st.toLineageDroppingCtx c.id x).trans
      (by rw [h.entry]; rfl)

theorem Available.storePiece (h : Available st x) (hne : x ≠ p.id)
    (pieces : List Chunk) : Available (st.storePiece c pieces p) x := by
  have h' := h.ensureLineage hne (.splitFrom c.id ((pieces.filter fun q => q.id ≠ p.id).map (·.id)))
  have h'' : Available ((st.ensureLineage p.id
      (.splitFrom c.id ((pieces.filter fun q => q.id ≠ p.id).map (·.id)))).indexChunk p) x :=
    ⟨h'.physical, h'.entry, h'.leaky, h'.dangling⟩
  exact h''.storePhysical hne

theorem earlyReturn_of_available (hp : p.Insertable) (h : Available st p.id) : st.earlyReturn p = none := by
  have h1 : p.isEmpty = false := by simpa [Chunk.isEmpty] using hp.nonempty
  have h2 : p.components.entries.isEmpty = false := by simpa using hp.components
  have h3 : ¬ st.IsPhysical p.id := by simp [IsPhysical, h.physical]
  have h4 : st.leakyChainIsLive p.id = false := by
    simp [leakyChainIsLive, Walk.reaches, h.leaky]
  simp [earlyReturn, h1, h2, h3, h4, hp.sorted]

theorem cleanUp_of_available (h : Available st p.id) : st.cleanUp p = (st, []) := by
  have h1 : st.isRootFromManifest p.id = false := by
    have : st.directLineage p.id = none := congrArg (Option.map _) h.entry
    simp [isRootFromManifest, this]
  simp [cleanUp, h1, h.dangling]

theorem insertChunkImpl_piece (env : Env) (fuel k : Nat) {siblings : List Chunk} (hp : p.Insertable)
    (htemporal : p.isStatic = false) (h : Available st p.id) :
    insertChunkImpl env (fuel + 1) k st p (.splitFrom c siblings) =
      (((st.ensureLineage p.id (.splitFrom c.id (siblings.map (·.id)))).indexChunk p).storePhysical p,
        .ok [.addition p p (.splitFrom c siblings)]) := by
  have hsplit : (st.ensureLineage p.id (.splitFrom c.id (siblings.map (·.id)))).descendsFromASplit
      p.id = true := by
    have : (st.insertLineageIfMissing p.id (.splitFrom c.id (siblings.map (·.id)))).directLineage p.id =
        some (.splitFrom c.id (siblings.map (·.id))) := by
      rw [insertLineageIfMissing_directLineage, if_pos ⟨rfl, h.entry⟩]
    show descendsFromASplit (st.insertLineageIfMissing _ _) p.id = true
    simp [descendsFromASplit, this]
  have hmay : (st.ensureLineage p.id (.splitFrom c.id (siblings.map (·.id)))).maySplit p = false := by
    simp [maySplit, hsplit]
  rw [insertChunkImpl, earlyReturn_of_available hp h, cleanUp_of_available h]
  simp only [ChunkDirectLineageReport.toLineage, hmay, false_eq_true, if_false, length_cons,
    length_nil, Nat.zero_add, Nat.lt_irrefl, insertWhole, htemporal, insertTemporal,
    findAndElectCompactionCandidate, hsplit, if_true, prependDeletions, map_nil, nil_append]
  rfl

theorem insertPieces_eq (env : Env) (fuel k : Nat) (c : Chunk) (pieces : List Chunk) :
    ∀ (ps : List Chunk) (st : ChunkStore), (∀ p ∈ ps, p.Insertable ∧ p.isStatic = false ∧ Available st p.id) →
      (ps.map (·.id)).Nodup →
      (insertPieces c (insertChunkImpl env (fuel + 1) k) pieces st ps).1 = ps.foldl (storePiece c pieces) st ∧
      (insertPieces c (insertChunkImpl env (fuel + 1) k) pieces st ps).2 =
        .ok (ps.map fun p => .addition c p (.splitFrom c (pieces.filter fun q => q.id ≠ p.id)))
  | [], st, _, _ => ⟨rfl, rfl⟩
  | p :: ps, st, hps, hnd => by
    obtain ⟨hp, htemporal, hav⟩ := hps p mem_cons_self
    rw [map_cons, nodup_cons] at hnd
    have hrest := insertPieces_eq env fuel k c pieces ps (st.storePiece c pieces p)
      (fun q hq => by
        obtain ⟨h1, h2, h3⟩ := hps q (mem_cons_of_mem _ hq)
        exact ⟨h1, h2, h3.storePiece (fun heq => hnd.1 (heq ▸ mem_map_of_mem hq)) pieces⟩) hnd.2
    obtain ⟨hst, hok⟩ := hrest
    rw [insertPieces, insertChunkImpl_piece env fuel k hp htemporal hav]
    unfold storePiece at hst hok
    dsimp only
    revert hst hok
    cases insertPieces c (insertChunkImpl env (fuel + 1) k) pieces (((st.ensureLineage p.id
      (.splitFrom c.id ((pieces.filter fun q => q.id ≠ p.id).map (·.id)))).indexChunk p).storePhysical p)
      ps with
    | mk st' result =>
      rintro hst rfl
      exact ⟨hst, rfl⟩

/-! ## Electing a neighbour -/

theorem candidates_pos {n : Nat} (h : (st.candidates c).lookup id = some n)
    (hn : 0 < n) : 0 < st.candidatePoints c id := by
  unfold candidates at h
  generalize (c.componentRanges.flatMap fun e => _) = sightings at h
  -- points come from sightings of the same id only
  suffices hfold : ∀ (points : Assoc ChunkId Nat),
      (∀ id n, points.lookup id = some n → 0 < n → 0 < st.candidatePoints c id) →
      ∀ id n, (sightings.foldl (fun points e =>
        Assoc.upsert points e.1 0 (· + st.candidatePoints c e.1 * e.2)) points).lookup id = some n →
        0 < n → 0 < st.candidatePoints c id from
    hfold ∅ (by simp) id n h hn
  clear h hn
  induction sightings with
  | nil => exact fun _ h => h
  | cons e sightings ih =>
    intro points hpoints
    refine ih _ fun id n h hn => ?_
    rw [lookup_upsert] at h
    split at h
    · rename_i hid
      subst hid
      by_contra hz
      have hz' : st.candidatePoints c e.1 = 0 := by omega
      rw [hz'] at h
      cases hl : points.lookup e.1 with
      | none => simp [hl] at h; omega
      | some n' =>
        rw [hl] at h
        have hn' : n' = n := by simpa using h
        have := hpoints e.1 n' hl (by omega)
        omega
    · exact hpoints id n h hn

variable {elected : Chunk}

theorem findAndElectCompactionCandidate_spec (h : findAndElectCompactionCandidate env st c = some elected) :
    ∃ id, st.physical id = some elected ∧ c.id ≠ id ∧ c.concatenable elected = true ∧
      st.descendsFromASplit id = false := by
  unfold findAndElectCompactionCandidate at h
  split at h
  · simp at h
  · split at h
    · simp at h
    · dsimp only at h
      obtain ⟨e, he, hphys⟩ := exists_of_findSome?_eq_some h
      have hmem : e ∈ Assoc.toList (st.candidates c) := by
        have := (mem_filter.mp he).1
        rwa [mem_reverse, mem_insertionSort, mem_insertionSort] at this
      have hpos : 0 < e.2 := by simpa using (mem_filter.mp he).2
      have hpoints := candidates_pos (mem_toList.mp hmem) hpos
      unfold candidatePoints at hpoints
      rw [hphys] at hpoints
      refine ⟨e.1, hphys, ?_⟩
      by_cases h1 : c.id = e.1
      · simp [h1] at hpoints
      · by_cases h2 : c.concatenable elected = true
        · cases h3 : st.descendsFromASplit e.1 with
          | false => exact ⟨h1, h2, rfl⟩
          | true => simp [h1, h2, h3] at hpoints
        · simp [h1, h2] at hpoints

/-! ## All outcomes -/

/-- The store before the branches: cleaned up, with a lineage entry for the chunk. -/
def prepared (st : ChunkStore) (c : Chunk) : ChunkStore :=
  (st.cleanUp c).1.ensureLineage c.id .volatile

theorem prepared_absent (hv : st.catalog.Sound) (h : st.physical c.id = none) : (st.prepared c).physical c.id = none :=
  (cleanUp_spec hv h).removes.absent h

/-- The pieces a chunk is cut into, itself when it stays whole. -/
def piecesOf (env : Env) (st : ChunkStore) (c : Chunk) : List Chunk × Nat :=
  if (st.prepared c).maySplit c then splitChunks env (st.prepared c) 0 c else ([c], 0)

/-- Whether a chunk is stored under its own id: static, or neither split nor compacted. -/
def keepsId (env : Env) (st : ChunkStore) (c : Chunk) : Bool :=
  c.isStatic || (decide ((st.piecesOf env c).1.length ≤ 1) &&
    (findAndElectCompactionCandidate env (st.prepared c) c).isNone)

/-- The ways an insertion that gets past the early returns can end. -/
inductive Insertion (env : Env) (st : ChunkStore) (c : Chunk) : ChunkStore → Prop
  | pieces (hstatic : c.isStatic = false)
      (hsplit : SplitOf env 0 (st.piecesOf env c).2 c (st.piecesOf env c).1)
      (hlen : 1 < (st.piecesOf env c).1.length) :
      Insertion env st c ((st.piecesOf env c).1.foldl (storePiece c (st.piecesOf env c).1)
        ((st.prepared c).recordSplit c (st.piecesOf env c).1))
  | static (hstatic : c.isStatic = true) :
      Insertion env st c (((st.prepared c).insertStatic c .volatile).1.storePhysical c)
  | temporal (hstatic : c.isStatic = false) (hkeeps : st.keepsId env c = true) :
      Insertion env st c (((st.prepared c).indexChunk c).storePhysical c)
  | merged {elected m : Chunk} (hstatic : c.isStatic = false) (hkeeps : st.keepsId env c = false)
      (helected : (st.prepared c).physical elected.id = some elected) (hne : c.id ≠ elected.id)
      (hconcat : c.concatenable elected = true)
      (hroot : (st.prepared c).descendsFromASplit elected.id = false)
      (hid : ∃ j, m.id = env.newId j) (hmerge : m.MergeOf (elected.JoinsColumns env c) elected c)
      (hsorted : m.isSorted = true)
      (hwhole : (st.piecesOf env c).1.length ≤ 1)
      (helect : findAndElectCompactionCandidate env (st.prepared c) c = some elected) :
      Insertion env st c
        ((((st.prepared c).indexChunk m).recordCompaction c elected m).storePhysical m)

theorem sound_of_earlyReturn (hwf : c.WellFormed) (h : st.earlyReturn c = none) :
    c.Insertable ∧ st.physical c.id = none ∧ st.leakyChainIsLive c.id = false := by
  unfold earlyReturn at h
  split at h
  · simp at h
  · rename_i h1
    split at h
    · simp at h
    · rename_i h2
      split at h
      · simp at h
      · rename_i h3
        split at h
        · simp at h
        · rename_i h4
          split at h
          · simp at h
          · rename_i h5
            refine ⟨⟨⟨hwf, ?_, ?_⟩, ?_⟩, ?_, ?_⟩
            · simpa [Chunk.isEmpty] using h1
            · simpa using h4
            · simpa using h2
            · simpa [IsPhysical] using h3
            · simpa using h5

theorem available_prepared (hv : st.catalog.Sound) (habsent : st.physical c.id = none) (hfresh : Fresh env st c)
    (k : Nat) :
    Available (st.prepared c) (env.newId k) := by
  have hclean := cleanUp_spec hv habsent
  exact (Available.of_not_mentions fun h => (hfresh k).1 (hclean.mentions _ h)).ensureLineage
    (hfresh k).2 .volatile

theorem descendsFromACompaction_of_available (h : Available st x) : st.descendsFromACompaction x = false := by
  have hd : st.directLineage x = none := congrArg (Option.map _) h.entry
  simp [descendsFromACompaction, descendsFromACompactionWithin, hd]

theorem piecesOf_spec (hv : st.catalog.Sound) (hc : c.Insertable) (habsent : st.physical c.id = none)
    (hfresh : Fresh env st c) (hlen : 1 < (st.piecesOf env c).1.length) :
    c.isStatic = false ∧ SplitOf env 0 (st.piecesOf env c).2 c (st.piecesOf env c).1 := by
  unfold piecesOf at hlen ⊢
  split
  · rename_i hmay
    simp only [maySplit, and_eq_true, not_eq_true'] at hmay
    obtain ⟨⟨hstatic, -⟩, hcomp⟩ := hmay
    refine ⟨hstatic, ?_⟩
    rcases splitChunks_spec env (st.prepared c) 0 hc.wf hc.nonempty hcomp (fun j =>
      descendsFromACompaction_of_available (available_prepared hv habsent hfresh j)) with h | h
    · rw [h] at hlen
      simp at hlen
    · exact h
  · rename_i hmay
    rw [if_neg hmay] at hlen
    simp at hlen

theorem insertChunkImpl_eq (h : st.earlyReturn c = none)
    (fuel : Nat) : insertChunkImpl env (fuel + 2) 0 st c .volatile =
      prependDeletions (st.cleanUp c).2
        (if 1 < (st.piecesOf env c).1.length then
          insertPieces c (insertChunkImpl env (fuel + 1) (st.piecesOf env c).2) (st.piecesOf env c).1
            ((st.prepared c).recordSplit c (st.piecesOf env c).1) (st.piecesOf env c).1
        else insertWhole env (st.piecesOf env c).2 (st.prepared c) c .volatile) := by
  rw [insertChunkImpl, h]
  rfl

theorem insertPieces_piecesOf (hv : st.catalog.Sound) (hc : c.Insertable) (habsent : st.physical c.id = none)
    (hfresh : Fresh env st c) (hlen : 1 < (st.piecesOf env c).1.length) (fuel : Nat) :
    insertPieces c (insertChunkImpl env (fuel + 1) (st.piecesOf env c).2) (st.piecesOf env c).1
        ((st.prepared c).recordSplit c (st.piecesOf env c).1) (st.piecesOf env c).1 =
      ((st.piecesOf env c).1.foldl (storePiece c (st.piecesOf env c).1)
          ((st.prepared c).recordSplit c (st.piecesOf env c).1),
        .ok ((st.piecesOf env c).1.map fun p =>
          .addition c p (.splitFrom c ((st.piecesOf env c).1.filter fun q => q.id ≠ p.id)))) := by
  have hav := available_prepared hv habsent hfresh
  obtain ⟨hstatic, hsplit⟩ := piecesOf_spec hv hc habsent hfresh hlen
  obtain ⟨hst, hok⟩ := insertPieces_eq env fuel (st.piecesOf env c).2 c (st.piecesOf env c).1
    (st.piecesOf env c).1 ((st.prepared c).recordSplit c (st.piecesOf env c).1) (fun p hp => by
      obtain ⟨j, -, -, hid⟩ := hsplit.ids.mem p hp
      have hpiece := hsplit.pieces p hp
      have hp' := hav j
      refine ⟨hpiece.insertable hc, hpiece.temporal hstatic, ?_⟩
      rw [hid]
      refine ⟨hp'.physical, hp'.entry, hp'.leaky, ?_⟩
      exact (lookup_insert_ite _ _ _ _).trans ((if_neg (hfresh j).2).trans hp'.dangling))
    hsplit.ids.nodup
  exact Prod.ext hst hok

theorem insertChunkImpl_cases (hv : st.catalog.Sound) (hwf : c.WellFormed) (hfresh : Fresh env st c)
    (h : st.earlyReturn c = none) (fuel : Nat) :
    Insertion env st c (insertChunkImpl env (fuel + 2) 0 st c .volatile).1 ∧
      ∃ diffs, (insertChunkImpl env (fuel + 2) 0 st c .volatile).2 = .ok diffs := by
  obtain ⟨hc, habsent, -⟩ := sound_of_earlyReturn hwf h
  have hclean := cleanUp_spec hv habsent
  have hresult : ∀ r : ChunkStore × Except ChunkStoreError (List ChunkStoreDiff),
      (prependDeletions (st.cleanUp c).2 r).1 = r.1 ∧
      ((∃ diffs, r.2 = .ok diffs) → ∃ diffs, (prependDeletions (st.cleanUp c).2 r).2 = .ok diffs) := by
    refine fun r => ⟨rfl, ?_⟩
    rintro ⟨diffs, hok⟩
    exact ⟨_, by rw [prependDeletions, hok]; rfl⟩
  rw [insertChunkImpl_eq h, (hresult _).1]
  refine (fun hgoal => ⟨hgoal.1, (hresult _).2 hgoal.2⟩ : _ ∧ _ → _) ?_
  split
  · rename_i hlen
    obtain ⟨hstatic, hsplit⟩ := piecesOf_spec hv hc habsent hfresh hlen
    rw [insertPieces_piecesOf hv hc habsent hfresh hlen]
    exact ⟨.pieces hstatic hsplit hlen, _, rfl⟩
  · rename_i hlen
    unfold insertWhole
    split
    · rename_i hstatic
      exact ⟨.static hstatic, _, rfl⟩
    · rename_i hstatic
      have hstatic' : c.isStatic = false := by simpa using hstatic
      unfold insertTemporal
      cases helect : findAndElectCompactionCandidate env (st.prepared c) c with
      | none =>
        refine ⟨.temporal hstatic' ?_, _, rfl⟩
        simp [keepsId, helect, not_lt.mp hlen]
      | some elected =>
        obtain ⟨id, hphys, hne, hconcat, hroot⟩ := findAndElectCompactionCandidate_spec helect
        have hv' : (st.prepared c).catalog.Sound := hv.removes hclean.removes
        have helected := hv'.chunk id elected hphys
        obtain rfl : elected.id = id := hv'.id_eq id elected hphys
        obtain ⟨m, k', hok, ⟨j, -, hid⟩, hmerge, hsorted⟩ := concatAndSort_spec env
          (st.piecesOf env c).2 helected.wf hwf helected.nonempty hc.nonempty
          (concatenable_symm hconcat)
        simp only [hok]
        refine ⟨.merged hstatic' ?_ hphys hne hconcat hroot ⟨j, hid⟩ hmerge hsorted
          (Nat.not_lt.mp hlen) helect, _, rfl⟩
        simp [keepsId, helect, hstatic']

/-- An id the call acts on: a root, past the early returns. -/
def Accepts (st : ChunkStore) (c : Chunk) : Prop := st.isRootChunk c.id = true ∧ st.earlyReturn c = none

instance (st : ChunkStore) (c : Chunk) : Decidable (st.Accepts c) :=
  decidable_of_iff (st.isRootChunk c.id = true ∧ (st.earlyReturn c).isNone) (by simp [Accepts])

theorem insertChunk_of_not_accepts (h : ¬ st.Accepts c) : (insertChunk env st c).1 = st := by
  unfold insertChunk
  cases hroot : st.isRootChunk c.id with
  | false => rfl
  | true =>
    cases hearly : st.earlyReturn c with
    | none => exact absurd ⟨hroot, hearly⟩ h
    | some result => simp [insertChunkImpl, hearly]

@[elab_as_elim]
theorem insertChunk_elim {P : ChunkStore → Prop} (h : P st) (haccepts : st.Accepts c → P (insertChunk env st c).1) :
    P (insertChunk env st c).1 := by
  by_cases hacc : st.Accepts c
  · exact haccepts hacc
  · exact (insertChunk_of_not_accepts hacc).symm ▸ h

theorem insertChunk_cases (hv : st.catalog.Sound) (hwf : c.WellFormed) (hfresh : Fresh env st c) (h : st.Accepts c) :
    Insertion env st c (insertChunk env st c).1 ∧ ∃ diffs, (insertChunk env st c).2 = .ok diffs := by
  have hc := (sound_of_earlyReturn hwf h.2).1
  have hrows : c.numRows ≠ 0 := fun h' => hc.nonempty (length_eq_zero_iff.mp h')
  obtain ⟨fuel, hfuel⟩ : ∃ fuel, c.numRows + 1 = fuel + 2 := ⟨c.numRows - 1, by omega⟩
  unfold insertChunk
  rw [h.1, hfuel]
  exact insertChunkImpl_cases hv hwf hfresh h.2 fuel

end ChunkStore

end Dalaran
