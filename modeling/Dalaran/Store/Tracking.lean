import Dalaran.Store.Drain
import Dalaran.Store.Run

/-
  The lineage of a store through insertions and removals.

  `Tracked.grow` is the one rule for entries that come in: counts stay right if
  the references gained are the ones there are. What an insertion does to the
  lineage is said entry by entry, for a split (`SplitInto`) and for a compaction
  (`CompactedInto`); `insertChunk_counted` puts the outcomes together.
-/

namespace Dalaran

open List Assoc ChunkDirectLineage

namespace LineageDroppingCtx

variable {ctx ctx' : LineageDroppingCtx} {held held' : ChunkId → Nat} {pend : ChunkId → Prop}
  {id : ChunkId}

/-! ## Taking references -/

theorem Tracked.mono {pend' : ChunkId → Prop} (h : Tracked held pend ctx) (hp : ∀ x, pend x → pend' x) :
    Tracked held pend' ctx :=
  ⟨h.count, h.closed, fun x l hl h0 => (h.zero x l hl h0).imp_left (hp x), h.twins, h.own, h.siblings⟩

theorem Tracked.settle (h : Tracked held pend ctx) (hp : ∀ x, pend x → 0 < held x + ctx.references x) :
    Tracked held (fun _ => False) ctx := by
  refine ⟨h.count, h.closed, fun x l hl h0 => .inr ?_, h.twins, h.own, h.siblings⟩
  refine (h.zero x l hl h0).resolve_left fun hx => ?_
  have := h.count x l hl
  have := hp x hx
  omega

theorem Tracked.unknown (h : Tracked held pend ctx) (hid : ctx.entry id = none) :
    held id = 0 ∧ ctx.references id = 0 ∧ ∀ x l, ctx.entry x = some l → id ∉ l.lineage.siblings := by
  have hzero : ¬ 0 < held id + ctx.references id := fun hpos => by
    have := h.closed id hpos
    simp [hid] at this
  refine ⟨by omega, by omega, fun x l hl hmem => ?_⟩
  have := h.siblings x l hl id hmem
  simp [hid] at this

/-- New entries next to old ones that gain references: the counts stay right if the new references
are the ones gained, and the new entries bring their siblings. -/
theorem Tracked.grow {pend' : ChunkId → Prop} (new : ChunkId → Option TrackedDirectChunkLineage)
    (n : ChunkId → Nat) (h : Tracked held pend ctx)
    (hentry : ∀ x, ctx'.entry x = (new x).or ((ctx.entry x).map (gain (n x))))
    (hnew : ∀ x l, new x = some l → ctx.entry x = none ∧ l.refCount = n x ∧
      x ∉ l.lineage.siblings ∧ (l.refCount = 0 → pend' x) ∧
      ∀ s ∈ l.lineage.siblings, ∃ l', new s = some l' ∧ Twins x l s l')
    (hcount : ∀ x, held' x + ctx'.references x = held x + ctx.references x + n x)
    (hpos : ∀ x, 0 < n x → (ctx.entry x).isSome ∨ (new x).isSome) (hpend : ∀ x, pend x → pend' x) :
    Tracked held' pend' ctx' := by
  have hof : ∀ {x l}, ctx'.entry x = some l → new x = some l ∨ (new x = none ∧ ∃ l₀,
      ctx.entry x = some l₀ ∧ l.lineage = l₀.lineage ∧
      l.descendsFromManifest = l₀.descendsFromManifest ∧ l.refCount = l₀.refCount + n x) := by
    intro x l hl
    rw [hentry] at hl
    cases hx : new x with
    | some l' =>
      rw [hx] at hl
      exact .inl hl
    | none =>
      rw [hx] at hl
      obtain ⟨l₀, hl₀, rfl⟩ := Option.map_eq_some_iff.mp hl
      exact .inr ⟨rfl, l₀, hl₀, rfl, rfl, rfl⟩
  have hsome : ∀ {x}, (ctx.entry x).isSome ∨ (new x).isSome → (ctx'.entry x).isSome := by
    intro x hx
    rw [hentry, Option.isSome_or, Option.isSome_map, Bool.or_comm, Bool.or_eq_true]
    exact hx
  -- an old entry and a new one are not of one split
  have hold : ∀ {x l s}, ctx.entry x = some l → s ∈ l.lineage.siblings → new s = none := by
    intro x l s hl hs
    refine Option.eq_none_iff_forall_ne_some.mpr fun l' hl' => ?_
    exact (h.unknown (hnew s l' hl').1).2.2 x l hl hs
  refine ⟨fun x l hl => ?_, fun x hx => ?_, fun x l hl h0 => ?_, fun x l y l' hl hl' hy => ?_,
    fun x l hl => ?_, fun x l hl s hs => ?_⟩
  · rw [hcount]
    rcases hof hl with hx | ⟨-, l₀, hl₀, -, -, hgain⟩
    · obtain ⟨hnone, heq, -⟩ := hnew x l hx
      obtain ⟨h1, h2, -⟩ := h.unknown hnone
      omega
    · rw [hgain, h.count x l₀ hl₀]
  · rw [hcount] at hx
    by_cases hn : 0 < n x
    · exact hsome (hpos x hn)
    · exact hsome (.inl (h.closed x (by omega)))
  · rcases hof hl with hx | ⟨-, l₀, hl₀, hlin, hdm, hgain⟩
    · exact .inl ((hnew x l hx).2.2.2.1 h0)
    · rcases h.zero x l₀ hl₀ (by omega) with hp | hdm' | ⟨s, hs, href⟩
      · exact .inl (hpend x hp)
      · exact .inr (.inl (hdm.trans hdm'))
      · refine .inr (.inr ⟨s, hlin ▸ hs, isReferenced_iff.mpr ?_⟩)
        obtain ⟨ls, hls, hspos⟩ := isReferenced_iff.mp href
        refine ⟨gain (n s) ls, ?_, Nat.lt_of_lt_of_le hspos (Nat.le_add_right ..)⟩
        rw [hentry, hold hl₀ hs, hls]
        rfl
  · rcases hof hl with hx | ⟨-, l₀, hl₀, hlin, hdm, -⟩
    · obtain ⟨l₁, hl₁, htwins⟩ := (hnew x l hx).2.2.2.2 y hy
      obtain rfl : l₁ = l' := by
        rw [hentry, hl₁] at hl'
        exact Option.some.inj hl'
      exact htwins
    · rw [hlin] at hy
      rcases hof hl' with hl' | ⟨-, l₁, hl₁, hlin₁, hdm₁, -⟩
      · rw [hold hl₀ hy] at hl'
        simp at hl'
      · obtain ⟨h1, h2⟩ := h.twins x l₀ y l₁ hl₀ hl₁ hy
        exact ⟨by rw [hdm, hdm₁, h1], by rw [hlin, hlin₁]; exact h2⟩
  · rcases hof hl with hx | ⟨-, l₀, hl₀, hlin, -⟩
    · exact (hnew x l hx).2.2.1
    · rw [hlin]
      exact h.own x l₀ hl₀
  · rcases hof hl with hx | ⟨-, l₀, hl₀, hlin, -⟩
    · obtain ⟨l', hl', -⟩ := (hnew x l hx).2.2.2.2 s hs
      exact hsome (.inr (by rw [hl']; rfl))
    · exact hsome (.inl (h.siblings x l₀ hl₀ s (hlin ▸ hs)))

theorem Tracked.insertNew (h : Tracked held pend ctx) {lineage : ChunkDirectLineage}
    (hid : ctx.entry id = none) (hsib : lineage.siblings = [])
    (hrefs : ∀ s ∈ lineage.referencedChunks, (ctx.entry s).isSome) :
    Tracked held (fun x => pend x ∨ x = id) (ctx.insertLineageIfMissing id lineage) := by
  have hself : lineage.referencedChunks.count id = 0 :=
    count_eq_zero.mpr fun hmem => by simpa [hid] using hrefs id hmem
  refine h.grow (fun x => if x = id then
    some ⟨lineage, 0, ctx.lineageDescendsFromManifest lineage⟩ else none)
    (fun x => lineage.referencedChunks.count x) (fun x => ?_) (fun x l hl => ?_) (fun x => ?_) (fun x hx => .inl (hrefs x (count_pos_iff.mp hx)))
    fun x => .inl
  · rw [insertLineageIfMissing_entry lineage hid]
    split
    · rename_i hx
      simp [gain, hx, hself]
    · rfl
  · by_cases hx : x = id
    · rw [if_pos hx] at hl
      cases hl
      subst hx
      exact ⟨hid, hself.symm, by simp [hsib], fun _ => .inr rfl, by simp [hsib]⟩
    · simp [hx] at hl
  · rw [insertLineageIfMissing_references hid]
    omega

theorem Tracked.hold (h : Tracked held pend ctx) (hid : (ctx.entry id).isSome) :
    Tracked (fun x => held x + if x = id then 1 else 0) pend (ctx.addReference id) := by
  refine h.grow (fun _ => none) (fun x => if x = id then 1 else 0)
    (fun x => addReference_entry ctx id x) (by simp) (fun x => ?_) (fun x hx => ?_) fun _ hx => hx
  · rw [addReference_references]
    omega
  · by_cases hxid : x = id
    · exact .inl (hxid ▸ hid)
    · simp [hxid] at hx

/-- The entries of the pieces of a split, each held from outside. -/
structure SplitInto (ctx : LineageDroppingCtx) (source : ChunkId) (manifest : Bool) (ids : List ChunkId)
    (siblings : ChunkId → List ChunkId) (ctx' : LineageDroppingCtx) : Prop where
  entry : ∀ x, ctx'.entry x = if x ∈ ids then some ⟨.splitFrom source (siblings x), 1, manifest⟩
    else (ctx.entry x).map (gain (if x = source then ids.length else 0))
  references : ∀ x, ctx'.references x = ctx.references x + if x = source then ids.length else 0

theorem Tracked.split {source : ChunkId} {manifest : Bool} {ids : List ChunkId}
    (h : Tracked held pend ctx)
    (hsplit : SplitInto ctx source manifest ids (fun x => ids.filter (· ≠ x)) ctx')
    (hids : ∀ x ∈ ids, ctx.entry x = none) (hsource : (ctx.entry source).isSome) :
    Tracked (fun x => held x + if x ∈ ids then 1 else 0) pend ctx' := by
  have hsource' : source ∉ ids := fun hmem => by simp [hids source hmem] at hsource
  refine h.grow
    (fun x => if x ∈ ids then some ⟨.splitFrom source (ids.filter (· ≠ x)), 1, manifest⟩ else none)
    (fun x => (if x ∈ ids then 1 else 0) + if x = source then ids.length else 0)
    (fun x => ?_) (fun x l hl => ?_) (fun x => ?_) (fun x hx => ?_) fun _ hx => hx
  · rw [hsplit.entry]
    by_cases hx : x ∈ ids
    · simp [hx]
    · simp [hx]
  · by_cases hx : x ∈ ids
    · rw [if_pos hx] at hl
      cases hl
      have hne : x ≠ source := fun heq => hsource' (heq ▸ hx)
      refine ⟨hids x hx, by simp [hx, hne], ?_, by simp, fun s hs => ?_⟩
      · exact fun hmem => by simpa using (mem_filter.mp hmem).2
      · -- either list of siblings is the whole split without the piece itself
        have hs' : s ∈ ids := (mem_filter.mp hs).1
        have hall : ∀ {z t}, z ∈ ids → (t = z ∨ t ∈ ids.filter (· ≠ z) ↔ t ∈ ids) := by
          intro z t hz
          by_cases htz : t = z
          · simp [htz, hz]
          · simp [htz]
        exact ⟨_, if_pos hs', rfl, fun t => (hall hx).trans (hall hs').symm⟩
    · simp [hx] at hl
  · rw [hsplit.references]
    omega
  · by_cases hmem : x ∈ ids
    · simp [hmem]
    · by_cases hxs : x = source
      · exact .inl (hxs ▸ hsource)
      · simp [hmem, hxs] at hx

end LineageDroppingCtx

structure ChunkDirectLineage.IsRoot (lineage : ChunkDirectLineage) : Prop where
  references : lineage.referencedChunks = []
  siblings : lineage.siblings = []

namespace ChunkStore

open LineageDroppingCtx

variable {st st' : ChunkStore} {pend : ChunkId → Prop} {c : Chunk}

/-! ## Removals -/

/-- The references on an id from outside the lineage: its physical chunk. -/
def held (st : ChunkStore) (x : ChunkId) : Nat := if (st.physical x).isSome then 1 else 0

/-- The lineage of the store is in order, up to ids that wait for a reference. -/
abbrev TrackedUpTo (pend : ChunkId → Prop) (st : ChunkStore) : Prop :=
  Tracked st.held pend st.toLineageDroppingCtx

theorem held_eq_one {x : ChunkId} (h : (st.physical x).isSome) : st.held x = 1 := if_pos h

theorem held_congr (h : ∀ x, st'.physical x = st.physical x) : st'.held = st.held := by
  funext x
  simp only [held, h]

theorem held_of_erased {id : ChunkId} (hid : st.IsPhysical id)
    (h : ∀ x, st'.physical x = if x = id then none else st.physical x) :
    st.held = fun x => st'.held x + if x = id then 1 else 0 := by
  funext x
  simp only [held, h]
  by_cases hx : x = id
  · subst hx
    have : (st.physical x).isSome = true := hid
    simp [this]
  · simp [hx]

theorem held_of_stored {id : ChunkId} (hid : st.physical id = none)
    (h : ∀ x, (st'.physical x).isSome ↔ x = id ∨ (st.physical x).isSome) :
    st'.held = fun x => st.held x + if x = id then 1 else 0 := by
  funext x
  simp only [held, h]
  by_cases hx : x = id
  · simp [hx, hid]
  · simp [hx]

theorem removeChunkShallow_tracked (hv : st.catalog.Sound) (h : TrackedUpTo pend st) (c : Chunk) :
    TrackedUpTo pend (st.removeChunkShallow c).1 := by
  obtain ⟨hctx, -, -⟩ := removeMinRowId_frame st c c.id
  have hphys : ∀ x, (st.removeMinRowId c c.id).physical x = st.physical x :=
    fun x => congrFun (congrArg Catalog.chunks (removeMinRowId_catalog st c c.id)) x
  rcases removeChunkShallow_cases st c with ⟨-, heq⟩ | ⟨removed, hsome, heq⟩
  · rw [heq]
    unfold TrackedUpTo
    rw [hctx, held_congr hphys]
    exact h
  · have hid : removed.id = c.id := hv.id_eq _ _ hsome
    rw [heq]
    unfold TrackedUpTo
    rw [(releasePhysical_frame _ removed c.id).1, hctx, hid]
    refine Tracked.drop ?_
    rw [← @held_of_erased st _ _ (Option.isSome_of_eq_some hsome) fun x => ?_]
    · exact h
    · have hforget : ((st.removeMinRowId c c.id).releasePhysical removed c.id).catalog.chunks x =
          if x = c.id then none else (st.removeMinRowId c c.id).physical x := by
        rw [releasePhysical_catalog]
        split <;> rfl
      rw [← hphys x]
      exact hforget

theorem removeChunksShallow_tracked (hv : st.catalog.Sound) (h : TrackedUpTo pend st)
    (chunks : List Chunk) (budget : Option (Nat → Bool)) (reason : ChunkDeletionReason) :
    TrackedUpTo pend (st.removeChunksShallow chunks budget reason).1 :=
  (removeShallowLoop_induct (I := fun st => st.catalog.Sound ∧ TrackedUpTo pend st)
    (fun _ c hc h => ⟨h.1.removes (removeChunkShallow_removes h.1 hc).removes,
      removeChunkShallow_tracked h.1 h.2 c⟩) ⟨hv, h⟩).2

theorem removeChunksDeep_tracked (hv : st.catalog.Sound) (h : TrackedUpTo pend st) (chunks : List Chunk)
    (reason : ChunkDeletionReason) : TrackedUpTo pend (st.removeChunksDeep chunks reason).1 :=
  removeDeepLoop_induct (I := fun st => TrackedUpTo pend st) (fun _ _ _ h => h)
    (removeChunksShallow_tracked hv h chunks none reason)

/-! ## Insertions -/

theorem cleanUp_tracked (hv : st.catalog.Sound) (habsent : st.physical c.id = none)
    (h : TrackedUpTo pend st) : TrackedUpTo pend (st.cleanUp c).1 := by
  have hchunks : ∀ x, (st.withoutManifestEntries c).physical x = st.physical x := by
    intro x
    have hcat := withoutManifestEntries_catalog habsent
    show (st.withoutManifestEntries c).catalog.chunks x = _
    rw [hcat]
    split <;> rfl
  have hfirst : TrackedUpTo pend (st.withoutManifestEntries c) := by
    unfold TrackedUpTo
    rw [(withoutManifestEntries_frame habsent).1, held_congr hchunks]
    exact h
  cases hg : (st.withoutManifestEntries c).danglingSplits.lookup c.id with
  | none =>
    rw [cleanUp_of_none hg]
    exact hfirst
  | some g =>
    rw [cleanUp_of_some hg]
    have hsecond : TrackedUpTo pend ((st.withoutManifestEntries c).withoutDangling c.id) :=
      ⟨hfirst.count, hfirst.closed, hfirst.zero, hfirst.twins, hfirst.own, hfirst.siblings⟩
    have hv' : ((st.withoutManifestEntries c).withoutDangling c.id).catalog.Sound :=
      hv.removes (withoutManifestEntries_cleanedUp habsent).removes
    exact removeChunksDeep_tracked hv' hsecond _ _

variable {l : TrackedDirectChunkLineage}

theorem root_of_accepts (hacc : st.Accepts c) (hl : st.entry c.id = some l) : l.lineage.IsRoot := by
  have hroot := hacc.1
  unfold isRootChunk directLineage at hroot
  rw [show st.chunksLineage.lookup c.id = some l from hl] at hroot
  cases hlin : l.lineage with
  | splitFrom source siblings => simp [hlin] at hroot
  | compactedFrom sources => simp [hlin] at hroot
  | rootFromManifest isStatic => exact ⟨rfl, rfl⟩
  | volatile => exact ⟨rfl, rfl⟩

theorem ensureLineage_tracked (h : TrackedUpTo pend st) (id : ChunkId) :
    TrackedUpTo (fun x => pend x ∨ x = id) (st.ensureLineage id .volatile) := by
  show Tracked st.held _ (st.insertLineageIfMissing id .volatile)
  cases hid : st.entry id with
  | none => exact h.insertNew hid rfl (by simp [referencedChunks])
  | some l =>
    rw [insertLineageIfMissing_of_some (by rw [hid]; rfl)]
    exact h.mono fun _ => .inl

theorem prepared_tracked (hv : st.catalog.Sound) (hacc : st.Accepts c) (habsent : st.physical c.id = none)
    (h : TrackedUpTo (fun _ => False) st) : TrackedUpTo (fun x => x = c.id) (st.prepared c) ∧
      ∃ l, (st.prepared c).entry c.id = some l ∧ l.lineage.IsRoot := by
  refine ⟨(ensureLineage_tracked (cleanUp_tracked hv habsent h) c.id).mono fun x => Or.rec False.elim id, ?_⟩
  show ∃ l, ((st.cleanUp c).1.insertLineageIfMissing c.id .volatile).entry c.id = some l ∧ _
  cases hl : (st.cleanUp c).1.entry c.id with
  | none =>
    rw [insertLineageIfMissing_entry _ hl, if_pos rfl]
    exact ⟨_, rfl, rfl, rfl⟩
  | some l =>
    rw [insertLineageIfMissing_of_some (by rw [hl]; rfl)]
    obtain ⟨l₀, hl₀, hlin, -⟩ := (cleanUp_lineage habsent).1 _ _ hl
    exact ⟨l, hl, hlin ▸ root_of_accepts hacc hl₀⟩

theorem held_storePhysical (st : ChunkStore) (c : Chunk) : (st.storePhysical c).held c.id = 1 := by
  refine held_eq_one ?_
  rw [show (st.storePhysical c).physical c.id = some c from
    (lookup_insert_ite _ _ _ _).trans (if_pos rfl)]
  rfl

theorem storePhysical_tracked (h : TrackedUpTo pend st) (habsent : st.physical c.id = none)
    (hentry : (st.entry c.id).isSome) : TrackedUpTo pend (st.storePhysical c) := by
  have hheld := @held_of_stored st (st.storePhysical c) c.id habsent fun x => by
    rw [show (st.storePhysical c).physical x = _ from lookup_insert_ite _ _ _ _]
    by_cases hx : x = c.id
    · simp [hx]
    · simp only [hx, if_false, false_or]
      rfl
  unfold TrackedUpTo
  rw [hheld]
  exact Tracked.hold h hentry

theorem storePiece_lineage (c : Chunk) (pieces : List Chunk) {p : Chunk} (hp : st.entry p.id = none)
    (hne : p.id ≠ c.id) :
    (∀ x, (storePiece c pieces st p).entry x =
      if x = p.id then some ⟨.splitFrom c.id ((pieces.filter fun q => q.id ≠ x).map (·.id)), 1,
        st.descendsFromManifest c.id⟩
      else (st.entry x).map (gain (if x = c.id then 1 else 0))) ∧
    ∀ x, (storePiece c pieces st p).references x = st.references x + if x = c.id then 1 else 0 := by
  have hcount : ∀ x lineage, lineage = splitFrom c.id
      ((pieces.filter fun q => q.id ≠ p.id).map (·.id)) →
      lineage.referencedChunks.count x = if x = c.id then 1 else 0 := by
    rintro x _ rfl
    by_cases hx : x = c.id
    · simp [referencedChunks, hx]
    · simp [referencedChunks, hx, Ne.symm hx]
  refine ⟨fun x => ?_, fun x => ?_⟩
  · show ((st.insertLineageIfMissing p.id (.splitFrom c.id _)).addReference p.id).entry x = _
    rw [addReference_entry, insertLineageIfMissing_entry _ hp, hcount x _ rfl]
    by_cases hx : x = p.id
    · subst hx
      simp [gain, hne, lineageDescendsFromManifest]
    · simp only [hx, if_false, Option.map_map]
      rfl
  · show ((st.insertLineageIfMissing p.id (.splitFrom c.id _)).addReference p.id).references x = _
    rw [addReference_references, insertLineageIfMissing_references hp, hcount x _ rfl]

theorem foldl_storePiece_splitInto (c : Chunk) (pieces : List Chunk) :
    ∀ (ps : List Chunk) (st : ChunkStore), (ps.map (·.id)).Nodup → (∀ p ∈ ps, st.entry p.id = none ∧ p.id ≠ c.id) →
      SplitInto st.toLineageDroppingCtx c.id (st.descendsFromManifest c.id) (ps.map (·.id))
        (fun x => (pieces.filter fun q => q.id ≠ x).map (·.id))
        (ps.foldl (storePiece c pieces) st).toLineageDroppingCtx
  | [], st, _, _ => by
    refine ⟨fun x => ?_, fun x => by simp⟩
    simp only [map_nil, not_mem_nil, if_false, length_nil, ite_self]
    exact Option.map_id'.symm
  | p :: ps, st, hnodup, hps => by
    rw [map_cons, nodup_cons] at hnodup
    obtain ⟨hp, hpc⟩ := hps p mem_cons_self
    obtain ⟨hentry, hrefs⟩ := storePiece_lineage c pieces hp hpc
    have hdm : (storePiece c pieces st p).descendsFromManifest c.id = st.descendsFromManifest c.id := by
      show ((storePiece c pieces st p).entry c.id).any _ = (st.entry c.id).any _
      rw [hentry, if_neg (Ne.symm hpc), Option.any_map]
      rfl
    have ih := foldl_storePiece_splitInto c pieces ps (storePiece c pieces st p) hnodup.2 fun q hq => by
      obtain ⟨hq', hqc⟩ := hps q (mem_cons_of_mem _ hq)
      have hqp : q.id ≠ p.id := fun heq => hnodup.1 (heq ▸ mem_map_of_mem hq)
      refine ⟨?_, hqc⟩
      rw [hentry, if_neg hqp, hq']
      rfl
    rw [hdm] at ih
    refine ⟨fun x => ?_, fun x => ?_⟩
    · rw [foldl_cons, ih.entry, map_cons, length_cons]
      by_cases hx : x ∈ ps.map (·.id)
      · simp [hx]
      · by_cases hxp : x = p.id
        · subst hxp
          simp only [hx, if_false, mem_cons, true_or, if_true, hentry, Option.map_some, hpc]
          rfl
        · simp only [hx, hxp, if_false, mem_cons, or_self, hentry, Option.map_map]
          congr 1
          funext l
          simp only [Function.comp_apply, gain, TrackedDirectChunkLineage.mk.injEq, and_true, true_and]
          split <;> omega
    · rw [foldl_cons, ih.references, hrefs, map_cons, length_cons]
      split <;> omega

theorem foldl_storePiece_physical (c : Chunk) (pieces : List Chunk) (x : ChunkId) :
    ∀ (ps : List Chunk) (st : ChunkStore), ((ps.foldl (storePiece c pieces) st).physical x).isSome ↔
      x ∈ ps.map (·.id) ∨ (st.physical x).isSome
  | [], st => by simp
  | p :: ps, st => by
    have hp : ((storePiece c pieces st p).physical x).isSome ↔ x = p.id ∨ (st.physical x).isSome := by
      rw [show (storePiece c pieces st p).physical x = if x = p.id then some p else st.physical x from
        lookup_insert_ite _ _ _ _]
      split
      · simp [*]
      · simp [*]
    rw [foldl_cons, foldl_storePiece_physical c pieces x ps, hp, map_cons, mem_cons]
    tauto

theorem foldl_storePiece_static (c : Chunk) (pieces : List Chunk) : ∀ (ps : List Chunk) (st : ChunkStore),
    (ps.foldl (storePiece c pieces) st).staticChunkIdsPerEntity = st.staticChunkIdsPerEntity
  | [], _ => rfl
  | p :: ps, st => foldl_storePiece_static c pieces ps (storePiece c pieces st p)

theorem pieces_tracked {ps : List Chunk} (h : TrackedUpTo (fun x => x = c.id) st)
    (hnodup : (ps.map (·.id)).Nodup) (hps : ∀ p ∈ ps, Available st p.id ∧ p.id ≠ c.id)
    (hc : (st.entry c.id).isSome) (hne : ps ≠ []) :
    TrackedUpTo (fun _ => False) (ps.foldl (storePiece c ps) (st.recordSplit c ps)) := by
  have hids : ∀ x ∈ ps.map (·.id), st.physical x = none ∧ st.entry x = none := by
    intro x hx
    obtain ⟨p, hp, rfl⟩ := mem_map.mp hx
    exact ⟨(hps p hp).1.physical, (hps p hp).1.entry⟩
  have hrecorded : TrackedUpTo (fun x => x = c.id) (st.recordSplit c ps) :=
    ⟨h.count, h.closed, h.zero, h.twins, h.own, h.siblings⟩
  have hsplit := foldl_storePiece_splitInto c ps ps (st.recordSplit c ps) hnodup
    fun p hp => ⟨(hps p hp).1.entry, (hps p hp).2⟩
  have hsib : (fun x => (ps.filter fun q => q.id ≠ x).map (·.id)) = fun x => (ps.map (·.id)).filter (· ≠ x) := by
    funext x
    rw [filter_map]
    rfl
  rw [hsib] at hsplit
  have hheld : (ps.foldl (storePiece c ps) (st.recordSplit c ps)).held =
      fun x => (st.recordSplit c ps).held x + if x ∈ ps.map (·.id) then 1 else 0 := by
    funext x
    unfold held
    by_cases hx : x ∈ ps.map (·.id)
    · have hnone : (st.recordSplit c ps).physical x = none := (hids x hx).1
      simp only [foldl_storePiece_physical, hx, true_or, if_true, hnone]
      rfl
    · simp [foldl_storePiece_physical, hx]
  have htracked : TrackedUpTo (fun x => x = c.id) (ps.foldl (storePiece c ps) (st.recordSplit c ps)) := by
    unfold TrackedUpTo
    rw [hheld]
    exact hrecorded.split hsplit (fun x hx => (hids x hx).2) hc
  refine htracked.settle ?_
  rintro x rfl
  have hlen : 0 < (ps.map (·.id)).length := by
    rw [length_map]
    exact length_pos_of_ne_nil hne
  rw [hsplit.references, if_pos rfl]
  omega

theorem whole_tracked (h : TrackedUpTo (fun x => x = c.id) st) (habsent : st.physical c.id = none)
    (hc : (st.entry c.id).isSome) : TrackedUpTo (fun _ => False) (st.storePhysical c) := by
  refine (storePhysical_tracked h habsent hc).settle ?_
  rintro x rfl
  rw [held_storePhysical]
  omega

/-- The ids static data points at are roots. -/
def StaticRoots (st : ChunkStore) : Prop :=
  ∀ key id l, st.staticChunkIdsPerEntity.lookup key = some id → st.entry id = some l → l.lineage.IsRoot

theorem insertStatic_tracked (h : TrackedUpTo pend st) (habsent : st.physical c.id = none)
    (hroots : st.StaticRoots) : TrackedUpTo pend (st.insertStatic c .volatile).1 ∧
      (st.insertStatic c .volatile).1.entry c.id = st.entry c.id := by
  refine (foldlRecOn (motive := fun acc : ChunkStore × List ChunkStoreDiff => Overwrites st c acc.1 ∧
    TrackedUpTo pend acc.1 ∧ acc.1.entry c.id = st.entry c.id) _ _ ⟨?_, h, rfl⟩ ?_).2
  · exact ⟨.refl _, .refl _, rfl, fun id d hd hgone => absurd (hd.symm.trans hgone) (by simp), .refl _, rfl, rfl⟩
  · rintro acc ⟨hover, htracked, hentry⟩ ⟨id, r⟩ hmem
    have hmem' := mem_toList.mp hmem
    refine ⟨removeOverwritten_overwrites habsent hover hmem', ?_⟩
    obtain ⟨d, component, hd, -, hkey⟩ := (staticUpdate_inv habsent).overwritten id r hmem'
    rcases removeOverwritten_cases c.entityPath acc id r with
      heq | ⟨-, heq⟩ | ⟨removed, hsome, -, heq⟩
    · rw [heq]
      exact ⟨htracked, hentry⟩
    · rw [heq]
      exact ⟨htracked, hentry⟩
    · rw [heq]
      have hphys : (acc.1.physical id).isSome := by rw [hsome]; rfl
      refine ⟨?_, ?_⟩
      · show Tracked _ pend (acc.1.dropLineageReference id)
        refine Tracked.drop ?_
        rw [← @held_of_erased acc.1 _ id hphys]
        · exact htracked
        · exact fun x => lookup_erase_ite _ _ _
      · -- the new chunk is not among the overwritten ones
        have hne : c.id ≠ id := by
          rintro rfl
          rw [habsent] at hd
          simp at hd
        obtain ⟨l, hl⟩ := Option.isSome_iff_exists.mp
          (htracked.closed id (by rw [held_eq_one hphys]; omega))
        obtain ⟨l₀, hl₀, hlin, -⟩ := hover.lineage.entry id l hl
        obtain ⟨hrefs, hsib⟩ := hlin ▸ hroots _ id l₀ hkey hl₀
        exact (dropLineageReference_of_root hl hrefs hsib hne).trans hentry

variable {elected : Chunk}

theorem mem_compactionSources (hne : c.id ≠ elected.id) {x : ChunkId} :
    x ∈ (compactionSources c elected).map Chunk.id ↔ x = c.id ∨ x = elected.id := by
  unfold compactionSources
  by_cases h1 : c.id < elected.id
  · simp [h1]
  · have h2 : elected.id < c.id := lt_of_le_of_ne (not_lt.mp h1) (Ne.symm hne)
    simp [h1, h2, or_comm]

theorem removeChunksShallow_single (st : ChunkStore) (c : Chunk) (reason : ChunkDeletionReason) :
    (st.removeChunksShallow [c] none reason).1 = (st.removeChunkShallow c).1 := by
  unfold removeChunksShallow removeShallowLoop
  split
  · rename_i hst
    rw [hst]
    rfl
  · rename_i hst
    rw [hst]
    rfl

theorem removeChunksDeep_lineage (h : st.physical c.id = some c) (reason : ChunkDeletionReason) :
    (st.removeChunksDeep [c] reason).1.toLineageDroppingCtx = st.dropLineageReference c.id := by
  have hround : (st.removeChunkShallow c).1.toLineageDroppingCtx = st.dropLineageReference c.id := by
    rcases removeChunkShallow_cases st c with ⟨hnone, -⟩ | ⟨removed, hsome, heq⟩
    · rw [h] at hnone
      simp at hnone
    · rw [heq, (releasePhysical_frame _ removed c.id).1, (removeMinRowId_frame st c c.id).1]
      rw [Option.mem_unique hsome h]
  have hdeep : (st.removeChunksDeep [c] reason).1.toLineageDroppingCtx =
      (st.removeChunksShallow [c] none reason).1.toLineageDroppingCtx := rfl
  rw [hdeep, removeChunksShallow_single, hround]

theorem removeChunksDeep_single_physical (h : st.physical c.id = some c) (reason : ChunkDeletionReason)
    (x : ChunkId) : (st.removeChunksDeep [c] reason).1.physical x = if x = c.id then none else st.physical x := by
  have hshallow := removeChunksShallow_single st c reason
  have hdeep : (st.removeChunksDeep [c] reason).1.physical x =
      (st.removeChunksShallow [c] none reason).1.physical x := rfl
  rw [hdeep, hshallow]
  rcases removeChunkShallow_cases st c with ⟨hnone, -⟩ | ⟨removed, -, heq⟩
  · rw [h] at hnone
    simp at hnone
  · have hforget : ((st.removeMinRowId c c.id).releasePhysical removed c.id).catalog.chunks x =
        if x = c.id then none else (st.removeMinRowId c c.id).catalog.chunks x := by
      rw [releasePhysical_catalog]
      split <;> rfl
    rw [heq]
    refine hforget.trans ?_
    rw [removeMinRowId_catalog]
    rfl

/-- The lineage after a compaction: the merge refers to both chunks, the elected one is gone. -/
structure CompactedInto (st : ChunkStore) (c elected m : Chunk) (st' : ChunkStore) : Prop where
  entry : ∀ x, st'.entry x =
    if x = m.id then some ⟨.compactedFrom ((compactionSources c elected).map Chunk.id), 1,
      st.lineageDescendsFromManifest (.compactedFrom ((compactionSources c elected).map Chunk.id))⟩
    else (st.entry x).map (gain (if x = c.id then 1 else 0))
  references : ∀ x, st'.references x = st.references x + if x = c.id ∨ x = elected.id then 1 else 0
  leaky : ∀ x, st'.leakyCompactions.lookup x =
    if x = c.id ∨ x = elected.id then some m.id else st.leakyCompactions.lookup x
  dangling : st'.danglingSplits = st.danglingSplits
  physical : ∀ x, st'.physical x = if x = m.id then some m else if x = elected.id then none else st.physical x

theorem foldl_insert_lookup {K V : Type} [DecidableEq K] (v : V) (k : K) :
    ∀ (ks : List K) (m : Assoc K V), (ks.foldl (fun m k' => AList.insert k' v m) m).lookup k =
      if k ∈ ks then some v else m.lookup k
  | [], m => by simp
  | k' :: ks, m => by
    rw [foldl_cons, foldl_insert_lookup v k ks, lookup_insert_ite]
    by_cases h : k ∈ ks
    · simp [h]
    · simp [h]

theorem count_compactionSources (hne : c.id ≠ elected.id) (x : ChunkId) :
    ((compactionSources c elected).map Chunk.id).count x = if x = c.id ∨ x = elected.id then 1 else 0 := by
  have hnodup : ((compactionSources c elected).map Chunk.id).Nodup := by
    unfold compactionSources
    by_cases h1 : c.id < elected.id
    · simp [h1, hne]
    · have h2 : elected.id < c.id := lt_of_le_of_ne (not_lt.mp h1) (Ne.symm hne)
      simp [h1, h2, Ne.symm hne]
  rw [hnodup.count]
  simp only [mem_compactionSources hne]

variable {m : Chunk}

theorem merged_compactedInto (h : TrackedUpTo pend st) (helected : st.physical elected.id = some elected)
    (hne : c.id ≠ elected.id) (hm : Available st m.id) (hmc : m.id ≠ c.id) : CompactedInto st c elected m
      (((st.indexChunk m).recordCompaction c elected m).storePhysical m) := by
  -- after the sources are recorded
  generalize hst₁ : (st.indexChunk m).recordSources c elected m = st₁
  generalize hsources : (compactionSources c elected).map Chunk.id = sources
  have hctx₁ : st₁.toLineageDroppingCtx = LineageDroppingCtx.insertLineageIfMissing
      ((st.indexChunk m).recordLeaky sources m.id).toLineageDroppingCtx m.id (.compactedFrom sources) := by
    rw [← hst₁, ← hsources]
    rfl
  have hnone : LineageDroppingCtx.entry ((st.indexChunk m).recordLeaky sources m.id).toLineageDroppingCtx
      m.id = none := hm.entry
  have hcount : ∀ x, (compactedFrom sources).referencedChunks.count x =
      if x = c.id ∨ x = elected.id then 1 else 0 := fun x => hsources ▸ count_compactionSources hne x
  have hentry₁ : ∀ x, st₁.entry x = (if x = m.id then
      some ⟨.compactedFrom sources, 0, st.lineageDescendsFromManifest (.compactedFrom sources)⟩
      else st.entry x).map (gain (if x = c.id ∨ x = elected.id then 1 else 0)) := by
    intro x
    rw [hctx₁, insertLineageIfMissing_entry _ hnone, hcount]
    rfl
  have hphys₁ : st₁.physical = st.physical := by
    rw [← hst₁]
    rfl
  have hmne : m.id ≠ elected.id := fun heq => by
    have := hm.physical
    rw [heq, helected] at this
    simp at this
  -- the elected chunk has two references by now
  obtain ⟨le, hle⟩ := Option.isSome_iff_exists.mp
    (h.closed elected.id (by rw [held_eq_one (by rw [helected]; rfl)]; omega))
  have hle₁ : st₁.entry elected.id = some (gain 1 le) := by
    rw [hentry₁, if_neg (Ne.symm hmne), hle, if_pos (.inr rfl)]
    rfl
  have htwo : 2 ≤ (gain 1 le).refCount := by
    have hold := h.count elected.id le hle
    rw [held_eq_one (by rw [helected]; rfl)] at hold
    show 2 ≤ le.refCount + 1
    omega
  have helected₁ : st₁.physical elected.id = some elected := by rw [hphys₁]; exact helected
  have hctx₂ := removeChunksDeep_lineage helected₁ .compaction
  rw [dropLineageReference_of_two_le hle₁ htwo] at hctx₂
  have hrecord : (st.indexChunk m).recordCompaction c elected m =
      (st₁.removeChunksDeep [elected] .compaction).1 := by
    rw [← hst₁]
    rfl
  have hctx₃ : ((st₁.removeChunksDeep [elected] .compaction).1.storePhysical m).toLineageDroppingCtx =
      (st₁.setEntry elected.id (lose (gain 1 le))).addReference m.id := by
    rw [← hctx₂]
    rfl
  rw [hrecord]
  refine ⟨fun x => ?_, fun x => ?_, fun x => ?_, ?_, fun x => ?_⟩
  · rw [hctx₃, addReference_entry, setEntry_entry, hentry₁, hsources]
    by_cases hxm : x = m.id
    · subst hxm
      simp [hmne, hmc, gain]
    · by_cases hxe : x = elected.id
      · subst hxe
        simp [hxm, hle, Ne.symm hne, gain, lose]
      · simp only [hxm, hxe, if_false, or_false, Option.map_map]
        rfl
  · rw [hctx₃, addReference_references, setEntry_references hle₁ (rfl : (lose (gain 1 le)).lineage = _), hctx₁,
      insertLineageIfMissing_references hnone, hcount]
    rfl
  · rw [hctx₃]
    show st₁.leakyCompactions.lookup x = _
    rw [hctx₁, (insertLineageIfMissing_maps _ _ _).1]
    show (sources.foldl (fun leaky source => AList.insert source m.id leaky) st.leakyCompactions).lookup x = _
    rw [foldl_insert_lookup]
    simp only [← hsources, mem_compactionSources hne]
  · rw [hctx₃]
    show st₁.danglingSplits = _
    rw [hctx₁, (insertLineageIfMissing_maps _ _ _).2.2]
    rfl
  · rw [show ((st₁.removeChunksDeep [elected] .compaction).1.storePhysical m).physical x = _ from
      lookup_insert_ite _ _ _ _]
    split
    · rfl
    · show (st₁.removeChunksDeep [elected] .compaction).1.physical x = _
      rw [← hphys₁]
      exact removeChunksDeep_single_physical helected₁ .compaction x

theorem merged_tracked (h : TrackedUpTo (fun x => x = c.id) st) (hc : (st.entry c.id).isSome)
    (helected : st.physical elected.id = some elected) (hne : c.id ≠ elected.id) (hm : Available st m.id)
    (hmc : m.id ≠ c.id) (hst' : CompactedInto st c elected m st') : TrackedUpTo (fun _ => False) st' := by
  have hheld : ∀ x, st'.held x + (if x = elected.id then 1 else 0) = st.held x + if x = m.id then 1 else 0 := by
    intro x
    unfold held
    rw [hst'.physical]
    by_cases hxm : x = m.id
    · subst hxm
      have hme : m.id ≠ elected.id := fun heq => by
        have := hm.physical
        rw [heq, helected] at this
        simp at this
      simp [hm.physical, hme]
    · by_cases hxe : x = elected.id
      · subst hxe
        simp [hxm, helected]
      · simp [hxm, hxe]
  have htracked : TrackedUpTo (fun x => x = c.id) st' := by
    refine h.grow (fun x => if x = m.id then some
        ⟨.compactedFrom ((compactionSources c elected).map Chunk.id), 1,
          st.lineageDescendsFromManifest (.compactedFrom ((compactionSources c elected).map Chunk.id))⟩
        else none) (fun x => (if x = m.id then 1 else 0) + if x = c.id then 1 else 0) (fun x => ?_) (fun x l hl => ?_) (fun x => ?_) (fun x hx => ?_) fun _ hx => hx
    · rw [hst'.entry]
      by_cases hxm : x = m.id
      · simp [hxm]
      · simp [hxm]
    · by_cases hxm : x = m.id
      · rw [if_pos hxm] at hl
        cases hl
        subst hxm
        refine ⟨hm.entry, by simp [hmc], ?_, by simp, ?_⟩ <;> simp [siblings]
      · simp [hxm] at hl
    · rw [hst'.references]
      have := hheld x
      by_cases hxc : x = c.id
      · subst hxc
        simp only [hne, if_false, true_or, if_true] at this ⊢
        omega
      · simp only [hxc, false_or, if_false] at this ⊢
        omega
    · by_cases hxm : x = m.id
      · simp [hxm]
      · by_cases hxc : x = c.id
        · exact .inl (hxc ▸ hc)
        · simp [hxm, hxc] at hx
  refine htracked.settle ?_
  rintro x rfl
  rw [hst'.references, if_pos (.inl rfl)]
  omega

/-- The lineage an insertion gives a new id: a piece of the chunk, or the merge with a neighbour. -/
inductive NewLineage (st : ChunkStore) (c : Chunk) : ChunkDirectLineage → Prop
  | piece (siblings : List ChunkId) : NewLineage st c (.splitFrom c.id siblings)
  | merge {elected : Chunk} (helected : st.physical elected.id = some elected) (hne : c.id ≠ elected.id)
      (hroot : st.descendsFromASplit elected.id = false) :
      NewLineage st c (.compactedFrom ((compactionSources c elected).map Chunk.id))

theorem Insertion.entry_cases {env : Env} (hv : st.catalog.Sound) (habsent : st.physical c.id = none)
    (hfresh : Fresh env st c) (h : Insertion env st c st') {x : ChunkId} (hl : st'.entry x = some l) :
    (∃ l₀, (st.prepared c).entry x = some l₀ ∧ l.lineage = l₀.lineage) ∨
      (∃ j, x = env.newId j) ∧ NewLineage (st.prepared c) c l.lineage := by
  have habsent' := prepared_absent hv habsent
  have hadd : ∀ {st₀ : ChunkStore} {d : Chunk}, (st₀.storePhysical d).entry x = some l →
      ∃ l₀, st₀.entry x = some l₀ ∧ l.lineage = l₀.lineage := by
    intro st₀ d hl
    have hl' := (addReference_entry st₀.toLineageDroppingCtx d.id x).symm.trans hl
    obtain ⟨l₀, hl₀, rfl⟩ := Option.map_eq_some_iff.mp hl'
    exact ⟨l₀, hl₀, rfl⟩
  cases h with
  | pieces hstatic hsplit hlen =>
    have hav := available_prepared hv habsent hfresh
    have hinto := foldl_storePiece_splitInto c (st.piecesOf env c).1 (st.piecesOf env c).1
      ((st.prepared c).recordSplit c (st.piecesOf env c).1) hsplit.ids.nodup fun p hp => by
        obtain ⟨j, -, -, hid⟩ := hsplit.ids.mem p hp
        exact ⟨hid ▸ (hav j).entry, hid ▸ (hfresh j).2⟩
    rw [hinto.entry] at hl
    split at hl
    · rename_i hx
      obtain ⟨p, hp, rfl⟩ := mem_map.mp hx
      obtain ⟨j, -, -, hid⟩ := hsplit.ids.mem p hp
      cases hl
      exact .inr ⟨⟨j, hid⟩, .piece _⟩
    · obtain ⟨l₀, hl₀, rfl⟩ := Option.map_eq_some_iff.mp hl
      exact .inl ⟨l₀, hl₀, rfl⟩
  | static hstatic =>
    obtain ⟨l₁, hl₁, hlin₁⟩ := hadd hl
    obtain ⟨l₀, hl₀, hlin₀, -⟩ :=
      (insertStatic_overwrites habsent' .volatile).lineage.entry x l₁ hl₁
    exact .inl ⟨l₀, hl₀, hlin₁.trans hlin₀⟩
  | temporal hstatic hkeeps =>
    obtain ⟨l₀, hl₀, hlin₀⟩ := hadd hl
    exact .inl ⟨l₀, hl₀, hlin₀⟩
  | @merged elected m hstatic hkeeps helected hne hconcat hroot hid hmerge hsorted =>
    obtain ⟨l₂, hl₂, hlin₂⟩ := hadd hl
    obtain ⟨l₁, hl₁, hlin₁, -⟩ := (removeChunksDeep_recedes _ _ _).lineage.entry x l₂ hl₂
    obtain ⟨j, hj⟩ := hid
    have hnone : (st.prepared c).entry m.id = none := hj ▸ (available_prepared hv habsent hfresh j).entry
    have hmissing := @insertLineageIfMissing_entry (((st.prepared c).indexChunk m).recordLeaky
      ((compactionSources c elected).map Chunk.id) m.id).toLineageDroppingCtx m.id
      (.compactedFrom ((compactionSources c elected).map Chunk.id)) hnone x
    by_cases hx : x = m.id
    · rw [if_pos hx] at hmissing
      obtain ⟨l₀, hl₀, rfl⟩ := Option.map_eq_some_iff.mp (hmissing.symm.trans hl₁)
      cases hl₀
      refine .inr ⟨⟨j, hx.trans hj⟩, ?_⟩
      rw [hlin₂.trans hlin₁]
      exact .merge helected hne hroot
    · rw [if_neg hx] at hmissing
      obtain ⟨l₀, hl₀, rfl⟩ := Option.map_eq_some_iff.mp (hmissing.symm.trans hl₁)
      exact .inl ⟨l₀, hl₀, hlin₂.trans hlin₁⟩

theorem Insertion.static_of {env : Env} (hv : st.catalog.Sound) (habsent : st.physical c.id = none)
    (h : Insertion env st c st') {key : EntityPath × ComponentIdentifier} {id : ChunkId}
    (hid : st'.staticChunkIdsPerEntity.lookup key = some id) :
    (id = c.id ∧ c.isStatic = true) ∨ st.staticChunkIdsPerEntity.lookup key = some id := by
  have hclean := cleanUp_spec hv habsent
  have habsent' := prepared_absent hv habsent
  have hprepared : (st.prepared c).staticChunkIdsPerEntity = st.staticChunkIdsPerEntity := hclean.static
  cases h with
  | pieces hstatic hsplit hlen =>
    refine .inr (hprepared ▸ ?_)
    exact foldl_storePiece_static c _ _ ((st.prepared c).recordSplit c _) ▸ hid
  | static hstatic =>
    have hover := insertStatic_overwrites habsent' .volatile
    have hid' : (staticUpdate (st.prepared c) c).staticMap.lookup key = some id := hover.static ▸ hid
    rcases (staticUpdate_inv habsent').points key id hid' with heq | hold
    · exact .inl ⟨heq, hstatic⟩
    · exact .inr (hprepared ▸ hold)
  | temporal hstatic hkeeps => exact .inr (hprepared ▸ hid)
  | @merged elected m hstatic hkeeps helected hne hconcat hroot hid' hmerge hsorted =>
    refine .inr (hprepared ▸ ?_)
    have hrec := (removeChunksDeep_recedes (((st.prepared c).indexChunk m).recordSources c elected m)
      [elected] .compaction).static
    exact hrec ▸ hid

/-- The lineage is in order, and static data points at roots. -/
structure Counted (st : ChunkStore) : Prop where
  tracked : TrackedUpTo (fun _ => False) st
  roots : st.StaticRoots

theorem prepared_roots (hv : st.catalog.Sound) (hacc : st.Accepts c) (habsent : st.physical c.id = none)
    (h : st.Counted) : (st.prepared c).StaticRoots := by
  intro key id l hkey hl
  have hkey' : st.staticChunkIdsPerEntity.lookup key = some id := (cleanUp_spec hv habsent).static ▸ hkey
  by_cases hid : id = c.id
  · obtain ⟨l', hl', hroot⟩ := (prepared_tracked hv hacc habsent h.tracked).2
    rw [hid, hl'] at hl
    exact Option.some.inj hl ▸ hroot
  · have hl' : (st.cleanUp c).1.entry id = some l := by
      cases hc : (st.cleanUp c).1.entry c.id with
      | none =>
        have hentry := insertLineageIfMissing_entry .volatile hc id
        rw [if_neg hid] at hentry
        obtain ⟨l', hl', rfl⟩ := Option.map_eq_some_iff.mp (hentry.symm.trans hl)
        exact hl'
      | some lc =>
        rw [← @insertLineageIfMissing_of_some (st.cleanUp c).1.toLineageDroppingCtx
          c.id (by rw [hc]; rfl) .volatile]
        exact hl
    obtain ⟨l₀, hl₀, hlin, -⟩ := (cleanUp_lineage habsent).1 _ _ hl'
    exact hlin ▸ h.roots key id l₀ hkey' hl₀

theorem insertChunk_counted {env : Env} {c : ValidChunk} (hv : st.catalog.Sound) (h : st.Counted)
    (hfresh : Fresh env st c.toChunk) : (insertChunk env st c.toChunk).1.Counted := by
  refine insertChunk_elim h fun hacc => ?_
  obtain ⟨hins, -⟩ := insertChunk_cases hv c.wf hfresh hacc
  obtain ⟨-, habsent, -⟩ := sound_of_earlyReturn c.wf hacc.2
  have hclean := cleanUp_spec hv habsent
  have habsent' := prepared_absent hv habsent
  have hav := available_prepared hv habsent hfresh
  obtain ⟨htracked, lc, hlc, hroot⟩ := prepared_tracked hv hacc habsent h.tracked
  have hroots := prepared_roots hv hacc habsent h
  have hc : ((st.prepared c.toChunk).entry c.id).isSome := by rw [hlc]; rfl
  generalize (insertChunk env st c.toChunk).1 = st' at hins
  refine ⟨?_, fun key id l hkey hl => ?_⟩
  · cases hins with
    | pieces hstatic hsplit hlen =>
      refine pieces_tracked htracked hsplit.ids.nodup (fun p hp => ?_) hc fun hnil => ?_
      · obtain ⟨j, -, -, hid⟩ := hsplit.ids.mem p hp
        exact ⟨hid ▸ hav j, hid ▸ (hfresh j).2⟩
      · rw [hnil] at hlen
        simp at hlen
    | static hstatic =>
      obtain ⟨htracked', hentry⟩ := insertStatic_tracked htracked habsent' hroots
      have hover := insertStatic_overwrites habsent' .volatile
      exact whole_tracked htracked' (hover.removes.absent habsent')
        (by rw [hentry]; exact hc)
    | temporal hstatic hkeeps =>
      have hindexed : TrackedUpTo (fun x => x = c.id) ((st.prepared c.toChunk).indexChunk c.toChunk) :=
        htracked
      exact whole_tracked hindexed habsent' hc
    | @merged elected m hstatic hkeeps helected hne hconcat _ hid hmerge hsorted =>
      obtain ⟨j, hj⟩ := hid
      have hm : Available (st.prepared c.toChunk) m.id := hj ▸ hav j
      have hmc : m.id ≠ c.id := hj ▸ (hfresh j).2
      exact merged_tracked htracked hc helected hne hm hmc
        (merged_compactedInto htracked helected hne hm hmc)
  · -- what static data points at is the chunk or an old root
    rcases hins.entry_cases hv habsent hfresh hl with ⟨l₀, hl₀, hlin⟩ | ⟨⟨j, rfl⟩, -⟩
    · rcases hins.static_of hv habsent hkey with ⟨rfl, -⟩ | hold
      · rw [hlc] at hl₀
        exact hlin ▸ Option.some.inj hl₀ ▸ hroot
      · exact hlin ▸ hroots key id l₀ (hclean.static ▸ hold) hl₀
    · rcases hins.static_of hv habsent hkey with ⟨heq, -⟩ | hold
      · exact absurd heq (hfresh j).2
      · exact absurd (Mentions.static hold) (hfresh j).1

theorem Counted.recedes (h : st.Counted) (hrec : Recedes st st') (htracked : TrackedUpTo (fun _ => False) st') :
    st'.Counted := by
  refine ⟨htracked, fun key id l hkey hl => ?_⟩
  obtain ⟨l₀, hl₀, hlin, -⟩ := hrec.lineage.entry id l hl
  exact hlin ▸ h.roots key id l₀ (hrec.static ▸ hkey) hl₀

end ChunkStore

end Dalaran
