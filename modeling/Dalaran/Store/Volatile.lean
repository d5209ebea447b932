import Dalaran.Store.Tracking

/-
  Stores that no manifest ever touched.

  Where chunks come in by `insert_chunk` only, what the store remembers about an id
  is enough to find what became of it: `leaky_compactions` leads from a source to
  the merge it went into, and on to a physical chunk as long as the merge has an
  entry, and `dangling_splits` has the pieces of a split, as long as they have
  entries. So an insertion that gets past the early returns, and has removed the
  pieces of an earlier split, finds nothing left of the id (`cleanUp_forgets`).
-/

namespace Dalaran

open List Option ChunkDirectLineage

namespace LineageDroppingCtx

variable {ctx ctx' : LineageDroppingCtx}

theorem Shrinks.references_eq_zero (h : Shrinks ctx ctx') {x : ChunkId} (hx : ctx.references x = 0) :
    ctx'.references x = 0 := by
  by_contra hne
  obtain ⟨y, l', hl', hmem⟩ := references_pos_iff.mp (Nat.pos_of_ne_zero hne)
  obtain ⟨l, hl, hlin, -⟩ := h.entry y l' hl'
  have := references_pos_iff.mpr ⟨y, l, hl, hlin ▸ hmem⟩
  omega

end LineageDroppingCtx

namespace ChunkStore

open LineageDroppingCtx

variable {st st' : ChunkStore} {skip pend : ChunkId → Prop} {c : Chunk}

/-- The lineage of a store without manifests, up to ids whose pieces are being removed. -/
structure VolatileUpTo (skip : ChunkId → Prop) (st : ChunkStore) : Prop where
  manifest : ∀ x l, st.entry x = some l →
    l.descendsFromManifest = false ∧ ∀ isStatic, l.lineage ≠ .rootFromManifest isStatic
  unreferenced : ∀ x, st.IsPhysical x → st.references x = 0
  compacted : ∀ y l sources, st.entry y = some l → l.lineage = .compactedFrom sources →
    ∀ x ∈ sources, st.leakyCompactions.lookup x = some y
  unsplit : ∀ y l sources, st.entry y = some l → l.lineage = .compactedFrom sources →
    ∀ x ∈ sources, st.danglingSplits.lookup x = none
  split : ∀ y l source siblings, st.entry y = some l → l.lineage = .splitFrom source siblings →
    st.references y = 0 ∧ (∃ l', st.entry source = some l' ∧ l'.lineage = .volatile) ∧
      (skip source ∨ ∃ g, st.danglingSplits.lookup source = some g ∧ y ∈ g ∧ ∀ s ∈ siblings, s ∈ g)
  dangling : ∀ source g, st.danglingSplits.lookup source = some g → ¬ skip source ∧ g ≠ [] ∧ ∀ p ∈ g,
    ∃ l siblings, st.entry p = some l ∧ l.lineage = .splitFrom source siblings ∧ ∀ q ∈ g, q = p ∨ q ∈ siblings
  acyclic : ∃ rank : ChunkId → Nat, ∀ x y, st.leakyCompactions.lookup x = some y → rank x < rank y

/-! ## Removals -/

theorem VolatileUpTo.split_gone (h : VolatileUpTo skip st)
    (hshrinks : Shrinks st.toLineageDroppingCtx st'.toLineageDroppingCtx) (htracked : TrackedUpTo pend st')
    (hphys : ∀ x, st'.IsPhysical x → st.IsPhysical x) {source p : ChunkId} {g : List ChunkId}
    (hpend : ¬ pend source) (hg : st.danglingSplits.lookup source = some g) (hp : p ∈ g)
    (hgone : st'.entry p = none) : st'.danglingSplits.lookup source = none := by
  obtain ⟨hskip, -, hpieces⟩ := h.dangling source g hg
  have hall : ∀ q ∈ g, st'.entry q = none := by
    intro q hq
    refine eq_none_iff_forall_ne_some.mpr fun lq' hlq' => ?_
    obtain ⟨lq, siblings, hlq, hlin, hgroup⟩ := hpieces q hq
    obtain ⟨lq₀, hlq₀, hlin', -⟩ := hshrinks.entry q lq' hlq'
    obtain rfl := mem_unique hlq hlq₀
    rcases hgroup p hp with rfl | hmem
    · rw [hgone] at hlq'
      simp at hlq'
    · have := htracked.siblings q lq' hlq' p (by rw [hlin', hlin]; exact hmem)
      rw [hgone] at this
      simp at this
  obtain ⟨lp, siblings, hlp, hlinp, -⟩ := hpieces p hp
  obtain ⟨-, ⟨ls, hls, hvol⟩, -⟩ := h.split p lp source siblings hlp hlinp
  -- the source has lost its last reference, and its entry with it
  have hrefs : st'.references source = 0 := by
    by_contra hne
    obtain ⟨y, l', hl', hmem⟩ := references_pos_iff.mp (Nat.pos_of_ne_zero hne)
    obtain ⟨l, hl, hlin, -⟩ := hshrinks.entry y l' hl'
    rw [hlin] at hmem
    cases hliny : l.lineage with
    | splitFrom source' siblings' =>
      rw [hliny] at hmem
      obtain rfl : source = source' := mem_singleton.mp hmem
      obtain ⟨g', hg', hy, -⟩ := (h.split y l source siblings' hl hliny).2.2.resolve_left hskip
      rw [mem_unique hg' hg] at hy
      rw [hall y hy] at hl'
      simp at hl'
    | compactedFrom sources =>
      rw [hliny] at hmem
      rw [h.unsplit y l sources hl hliny source hmem] at hg
      simp at hg
    | rootFromManifest isStatic | volatile => simp [hliny, referencedChunks] at hmem
  have hheld : st'.held source = 0 := by
    refine if_neg fun hs => ?_
    have := references_pos_iff.mpr ⟨p, lp, hlp, by rw [hlinp]; exact mem_singleton_self source⟩
    have := h.unreferenced source (hphys source hs)
    omega
  refine (hshrinks.gone source (by rw [hls]; rfl) (eq_none_iff_forall_ne_some.mpr fun l' hl' => ?_)).2
  obtain ⟨l, hl, hlin, hdm⟩ := hshrinks.entry source l' hl'
  obtain rfl := mem_unique hls hl
  have hcount := htracked.count source l' hl'
  rcases htracked.zero source l' hl' (by omega) with hp | hdm' | ⟨s, hs, -⟩
  · exact hpend hp
  · rw [hdm, (h.manifest source ls hls).1] at hdm'
    simp at hdm'
  · rw [hlin, hvol] at hs
    simp [ChunkDirectLineage.siblings] at hs

theorem VolatileUpTo.shrinks (h : VolatileUpTo skip st)
    (hshrinks : Shrinks st.toLineageDroppingCtx st'.toLineageDroppingCtx) (htracked : TrackedUpTo pend st')
    (hphys : ∀ x, st'.IsPhysical x → st.IsPhysical x)
    (hpend : ∀ x, pend x → st.danglingSplits.lookup x = none) : VolatileUpTo skip st' := by
  -- a source keeps its entry, and with it what is recorded about it
  have hkept : ∀ {x y l}, st'.entry y = some l → x ∈ l.lineage.referencedChunks →
      (st'.entry x).isSome := fun hl hx =>
    htracked.closed _ (Nat.add_pos_right _ (references_pos_iff.mpr ⟨_, _, hl, hx⟩))
  refine ⟨fun x l hl => ?_, fun x hx => ?_, fun y l sources hl hlin x hx => ?_,
    fun y l sources hl hlin x hx => ?_, fun y l source siblings hl hlin => ?_, fun source g hg => ?_, ?_⟩
  · obtain ⟨l₀, hl₀, hlin, hdm⟩ := hshrinks.entry x l hl
    rw [hlin, hdm]
    exact h.manifest x l₀ hl₀
  · exact hshrinks.references_eq_zero (h.unreferenced x (hphys x hx))
  · obtain ⟨l₀, hl₀, hlin₀, -⟩ := hshrinks.entry y l hl
    rw [(hshrinks.kept x (hkept hl (by rw [hlin]; exact hx))).1]
    exact h.compacted y l₀ sources hl₀ (hlin₀ ▸ hlin) x hx
  · obtain ⟨l₀, hl₀, hlin₀, -⟩ := hshrinks.entry y l hl
    rw [(hshrinks.kept x (hkept hl (by rw [hlin]; exact hx))).2]
    exact h.unsplit y l₀ sources hl₀ (hlin₀ ▸ hlin) x hx
  · obtain ⟨l₀, hl₀, hlin₀, -⟩ := hshrinks.entry y l hl
    obtain ⟨href, ⟨ls, hls, hvol⟩, hdangling⟩ := h.split y l₀ source siblings hl₀ (hlin₀ ▸ hlin)
    have hsource := hkept hl (x := source) (by rw [hlin]; exact mem_singleton_self _)
    refine ⟨hshrinks.references_eq_zero href, ?_, ?_⟩
    · obtain ⟨ls', hls'⟩ := isSome_iff_exists.mp hsource
      obtain ⟨ls₀, hls₀, hlins, -⟩ := hshrinks.entry source ls' hls'
      obtain rfl := mem_unique hls hls₀
      exact ⟨ls', hls', hlins.trans hvol⟩
    · rw [(hshrinks.kept source hsource).2]
      exact hdangling
  · have hold := hshrinks.dangling_of source g hg
    obtain ⟨hskip, hne, hpieces⟩ := h.dangling source g hold
    refine ⟨hskip, hne, fun p hp => ?_⟩
    obtain ⟨l, siblings, hl, hlin, hgroup⟩ := hpieces p hp
    have hsome : st'.entry p ≠ none := fun hnone => by
      have hpend' : ¬ pend source := fun hps => by
        rw [hpend source hps] at hold
        simp at hold
      rw [h.split_gone hshrinks htracked hphys hpend' hold hp hnone] at hg
      simp at hg
    obtain ⟨l', hl'⟩ := ne_none_iff_exists'.mp hsome
    obtain ⟨l₀, hl₀, hlin₀, -⟩ := hshrinks.entry p l' hl'
    obtain rfl := mem_unique hl hl₀
    exact ⟨l', siblings, hl', hlin₀.trans hlin, hgroup⟩
  · obtain ⟨rank, hrank⟩ := h.acyclic
    exact ⟨rank, fun x y hxy => hrank x y (hshrinks.leaky_of x y hxy)⟩

theorem VolatileUpTo.removes (h : VolatileUpTo skip st) (hrec : Recedes st st')
    (hcat : Catalog.Removes st.catalog st'.catalog) (htracked : TrackedUpTo (fun _ => False) st') :
    VolatileUpTo skip st' := by
  refine h.shrinks hrec.lineage htracked (fun x hx => ?_) fun _ => False.elim
  have hsome : (st'.catalog.chunks x).isSome := hx
  show (st.catalog.chunks x).isSome
  rwa [← hcat.isSome_of hsome]

/-! ## Chains -/

variable {l : TrackedDirectChunkLineage}

theorem VolatileUpTo.merged_on (h : VolatileUpTo skip st) (htracked : TrackedUpTo (fun _ => False) st) {y : ChunkId}
    {sources : List ChunkId} (hl : st.entry y = some l) (hlin : l.lineage = .compactedFrom sources)
    (hy : ¬ st.IsPhysical y) :
    ∃ z lz sources', st.entry z = some lz ∧ lz.lineage = .compactedFrom sources' ∧ y ∈ sources' := by
  have hheld : st.held y = 0 := if_neg hy
  have hpos : 0 < st.references y := by
    by_contra hzero
    have hcount := htracked.count y l hl
    rcases htracked.zero y l hl (by omega) with hf | hdm | ⟨s, hs, -⟩
    · exact hf
    · rw [(h.manifest y l hl).1] at hdm
      simp at hdm
    · rw [hlin] at hs
      simp [ChunkDirectLineage.siblings] at hs
  obtain ⟨z, lz, hlz, hmem⟩ := references_pos_iff.mp hpos
  cases hlinz : lz.lineage with
  | splitFrom source siblings =>
    rw [hlinz] at hmem
    obtain rfl : y = source := mem_singleton.mp hmem
    obtain ⟨-, ⟨l', hl', hvol⟩, -⟩ := h.split z lz y siblings hlz hlinz
    obtain rfl := mem_unique hl hl'
    rw [hlin] at hvol
    simp at hvol
  | compactedFrom sources' => exact ⟨z, lz, sources', hlz, hlinz, by rw [hlinz] at hmem; exact hmem⟩
  | rootFromManifest isStatic | volatile => simp [hlinz, referencedChunks] at hmem

theorem VolatileUpTo.chain_live (h : VolatileUpTo skip st) (htracked : TrackedUpTo (fun _ => False) st)
    {x y : ChunkId} {sources : List ChunkId} (hl : st.entry y = some l) (hlin : l.lineage = .compactedFrom sources)
    (hx : x ∈ sources) : st.leakyChainIsLive x = true := by
  obtain ⟨rank, hrank⟩ := h.acyclic
  refine Walk.reaches_of_rank hrank (P := fun x => ∃ y l sources, st.entry y = some l ∧
    l.lineage = .compactedFrom sources ∧ x ∈ sources) ?_ _ x
    (Nat.lt_succ_of_le (Walk.length_above_le rank x)) ⟨y, l, sources, hl, hlin, hx⟩
  rintro x ⟨y, l, sources, hl, hlin, hx⟩
  refine ⟨y, h.compacted y l sources hl hlin x hx, ?_⟩
  by_cases hy : st.IsPhysical y
  · exact .inl (decide_eq_true hy)
  · exact .inr (h.merged_on htracked hl hlin hy)

/-! ## Clearing the way -/

theorem cleanUp_absent (hv : st.catalog.Sound) (habsent : st.physical c.id = none) {g : List ChunkId}
    (hg : st.danglingSplits.lookup c.id = some g) {x : ChunkId} (hx : x ∈ g) :
    (st.cleanUp c).1.physical x = none := by
  have hfirst := withoutManifestEntries_cleanedUp habsent
  have hg' : (st.withoutManifestEntries c).danglingSplits.lookup c.id = some g := by
    rw [← hg]
    exact congrArg (fun ctx => AList.lookup c.id ctx.danglingSplits) (withoutManifestEntries_frame habsent).1
  have hv' : ((st.withoutManifestEntries c).withoutDangling c.id).catalog.Sound := hv.removes hfirst.removes
  rw [cleanUp_of_some hg']
  cases hphys : (st.withoutManifestEntries c).physical x with
  | none =>
    have hrem := (removeChunksDeep_removes hv' (g.filterMap (st.withoutManifestEntries c).physical)
      .danglingSplitCleanup).removes.chunks x
    exact hrem.elim (fun h => h.trans hphys) id
  | some d =>
    have hid : d.id = x := hv'.id_eq x d hphys
    have hmem : d ∈ g.filterMap (st.withoutManifestEntries c).physical :=
      mem_filterMap.mpr ⟨x, hx, hphys⟩
    -- unlisting it afterwards brings it not back
    refine removeDeepLoop_induct (I := fun st' => st'.physical x = none) (fun _ _ _ h => h) ?_
    rw [← hid]
    exact removeShallowLoop_absent (fun _ => rfl) .danglingSplitCleanup hv' d hmem

theorem cleanUp_volatileUpTo (hv : st.catalog.Sound) (habsent : st.physical c.id = none)
    (htracked : TrackedUpTo (fun _ => False) st) (h : VolatileUpTo (fun _ => False) st) :
    VolatileUpTo (fun x => x = c.id) (st.cleanUp c).1 ∧ (st.cleanUp c).1.danglingSplits.lookup c.id = none := by
  have hfirst := withoutManifestEntries_cleanedUp habsent
  have hctx := (withoutManifestEntries_frame habsent).1
  have hphys : ∀ x, (st.withoutManifestEntries c).IsPhysical x → st.IsPhysical x := fun x hx => by
    have hsome : ((st.withoutManifestEntries c).catalog.chunks x).isSome := hx
    show (st.catalog.chunks x).isSome
    rwa [← hfirst.removes.isSome_of hsome]
  -- with the pieces of the chunk forgotten
  have hone : ∀ {st₁ : ChunkStore}, st₁.chunksLineage = st.chunksLineage →
      st₁.leakyCompactions = st.leakyCompactions → (∀ x, st₁.IsPhysical x → st.IsPhysical x) →
      (∀ x, st₁.danglingSplits.lookup x = if x = c.id then none else st.danglingSplits.lookup x) →
      VolatileUpTo (fun x => x = c.id) st₁ := by
    intro st₁ hlineage hleaky hphys₁ hdangling
    have hentry : ∀ x, st₁.entry x = st.entry x := fun x => congrArg (AList.lookup x) hlineage
    have hrefs : ∀ x, st₁.references x = st.references x := fun x =>
      congrArg (fun m : Assoc ChunkId TrackedDirectChunkLineage =>
        Assoc.sum m fun _ l => l.lineage.referencedChunks.count x) hlineage
    refine ⟨fun x l hl => h.manifest x l (hentry x ▸ hl),
      fun x hx => (hrefs x).trans (h.unreferenced x (hphys₁ x hx)), fun y l sources hl hlin x hx => ?_,
      fun y l sources hl hlin x hx => ?_, fun y l source siblings hl hlin => ?_, fun source g hg => ?_, ?_⟩
    · rw [hleaky]
      exact h.compacted y l sources (hentry y ▸ hl) hlin x hx
    · rw [hdangling, h.unsplit y l sources (hentry y ▸ hl) hlin x hx, ite_self]
    · obtain ⟨h1, h2, h3⟩ := h.split y l source siblings (hentry y ▸ hl) hlin
      refine ⟨(hrefs y).trans h1, by rw [hentry]; exact h2, ?_⟩
      by_cases hs : source = c.id
      · exact .inl hs
      · exact .inr (by rw [hdangling, if_neg hs]; exact h3.resolve_left id)
    · rw [hdangling] at hg
      split at hg
      · simp at hg
      · rename_i hs
        obtain ⟨-, hne, hpieces⟩ := h.dangling source g hg
        refine ⟨hs, hne, fun p hp => ?_⟩
        rw [hentry]
        exact hpieces p hp
    · rw [hleaky]
      exact h.acyclic
  have hdangling : ∀ x, (st.withoutManifestEntries c).danglingSplits.lookup x =
      st.danglingSplits.lookup x := fun x => by rw [hctx]
  cases hg : (st.withoutManifestEntries c).danglingSplits.lookup c.id with
  | none =>
    rw [cleanUp_of_none hg]
    refine ⟨hone (by rw [hctx]) (by rw [hctx]) hphys fun x => ?_, hg⟩
    split
    · rename_i hx
      rw [hx, hg]
    · exact hdangling x
  | some g =>
    have hlookup : ∀ x, ((st.withoutManifestEntries c).withoutDangling c.id).danglingSplits.lookup x =
        if x = c.id then none else st.danglingSplits.lookup x := fun x =>
      (Assoc.lookup_erase_ite _ _ _).trans (by rw [hdangling])
    have htwo : VolatileUpTo (fun x => x = c.id) ((st.withoutManifestEntries c).withoutDangling c.id) := by
      refine hone ?_ ?_ hphys hlookup
      · show (st.withoutManifestEntries c).chunksLineage = _
        rw [hctx]
      · show (st.withoutManifestEntries c).leakyCompactions = _
        rw [hctx]
    have hv' : ((st.withoutManifestEntries c).withoutDangling c.id).catalog.Sound := hv.removes hfirst.removes
    have hcleaned := cleanUp_tracked hv habsent htracked
    have hrec := removeChunksDeep_recedes ((st.withoutManifestEntries c).withoutDangling c.id)
      (g.filterMap (st.withoutManifestEntries c).physical) .danglingSplitCleanup
    rw [cleanUp_of_some hg] at hcleaned ⊢
    refine ⟨htwo.removes hrec (removeChunksDeep_removes hv' ..).removes hcleaned, ?_⟩
    refine eq_none_iff_forall_ne_some.mpr fun g' hg' => ?_
    have hold := hrec.lineage.dangling_of c.id g' hg'
    rw [hlookup, if_pos rfl] at hold
    simp at hold

theorem cleanUp_forgets (hv : st.catalog.Sound) (htracked : TrackedUpTo (fun _ => False) st)
    (h : VolatileUpTo (fun _ => False) st) (hwf : c.WellFormed) (hacc : st.Accepts c) :
    VolatileUpTo (fun _ => False) (st.cleanUp c).1 ∧ (st.cleanUp c).1.entry c.id = none ∧
      (st.cleanUp c).1.danglingSplits.lookup c.id = none := by
  obtain ⟨-, habsent, hdead⟩ := sound_of_earlyReturn hwf hacc.2
  have hcleaned := cleanUp_tracked hv habsent htracked
  obtain ⟨hvol, hundangling⟩ := cleanUp_volatileUpTo hv habsent htracked h
  -- a piece of an earlier split has neither a chunk nor references
  have hpiece : ∀ {y l siblings}, (st.cleanUp c).1.entry y = some l → l.lineage ≠ .splitFrom c.id siblings := by
    intro y l siblings hl hlin
    obtain ⟨l₀, hl₀, hlin₀, -⟩ := (cleanUp_lineage habsent).1 _ _ hl
    obtain ⟨-, -, hdangling⟩ := h.split y l₀ c.id siblings hl₀ (hlin₀ ▸ hlin)
    obtain ⟨g, hg, hyg, hsg⟩ := hdangling.resolve_left id
    have hzero : ∀ {z lz source siblings'}, z ∈ g → (st.cleanUp c).1.entry z = some lz →
        lz.lineage = .splitFrom source siblings' → lz.refCount = 0 := by
      intro z lz source siblings' hz hlz hlinz
      have hcount := hcleaned.count z lz hlz
      have hheld : (st.cleanUp c).1.held z = 0 := by simp [held, cleanUp_absent hv habsent hg hz]
      have href := (hvol.split z lz source siblings' hlz hlinz).1
      omega
    rcases hcleaned.zero y l hl (hzero hyg hl hlin) with hf | hdm | ⟨s, hs, href⟩
    · exact hf
    · rw [(hvol.manifest y l hl).1] at hdm
      simp at hdm
    · obtain ⟨ls, hls, hpos⟩ := isReferenced_iff.mp href
      rw [hlin] at hs
      -- a sibling is a piece too
      have hy : y ∈ ls.lineage.siblings := by
        have htwins := hcleaned.twins y l s ls hl hls (by rw [hlin]; exact hs)
        refine ((htwins.group y).mp (.inl rfl)).resolve_left fun heq => ?_
        exact hcleaned.own y l hl (by rw [hlin]; exact heq ▸ hs)
      cases hlins : ls.lineage with
      | splitFrom source siblings' =>
        have := hzero (hsg s hs) hls hlins
        omega
      | compactedFrom _ | rootFromManifest _ => simp [hlins, ChunkDirectLineage.siblings] at hy
      | volatile => simp [hlins, ChunkDirectLineage.siblings] at hy
  have hrefs : (st.cleanUp c).1.references c.id = 0 := by
    by_contra hne
    obtain ⟨y, l, hl, hmem⟩ := references_pos_iff.mp (Nat.pos_of_ne_zero hne)
    obtain ⟨l₀, hl₀, hlin₀, -⟩ := (cleanUp_lineage habsent).1 _ _ hl
    cases hlin : l.lineage with
    | splitFrom source siblings =>
      rw [hlin] at hmem
      obtain rfl : c.id = source := mem_singleton.mp hmem
      exact hpiece hl hlin
    | compactedFrom sources =>
      rw [hlin] at hmem
      rw [h.chain_live htracked hl₀ (hlin₀ ▸ hlin) hmem] at hdead
      simp at hdead
    | rootFromManifest isStatic | volatile => simp [hlin, referencedChunks] at hmem
  refine ⟨⟨hvol.manifest, hvol.unreferenced, hvol.compacted, hvol.unsplit,
    fun y l source siblings hl hlin => ?_, fun source g hg => ?_, hvol.acyclic⟩, ?_, hundangling⟩
  · obtain ⟨h1, h2, h3⟩ := hvol.split y l source siblings hl hlin
    refine ⟨h1, h2, .inr (h3.resolve_left ?_)⟩
    rintro rfl
    exact hpiece hl hlin
  · exact ⟨id, (hvol.dangling source g hg).2⟩
  · refine eq_none_iff_forall_ne_some.mpr fun l hl => ?_
    have habsent' : (st.cleanUp c).1.physical c.id = none :=
      (cleanUp_spec hv habsent).removes.absent habsent
    have hheld : (st.cleanUp c).1.held c.id = 0 := by simp [held, habsent']
    have hcount := hcleaned.count c.id l hl
    obtain ⟨l₀, hl₀, hlin, -⟩ := (cleanUp_lineage habsent).1 _ _ hl
    have hroot := root_of_accepts hacc hl₀
    rcases hcleaned.zero c.id l hl (by omega) with hf | hdm | ⟨s, hs, -⟩
    · exact hf
    · rw [(hvol.manifest c.id l hl).1] at hdm
      simp at hdm
    · rw [hlin, hroot.siblings] at hs
      simp at hs

/-! ## Insertions -/

/-- What entries come in with: pieces of a recorded split of a chunk out of memory, or a recorded merge of
sources that no split is recorded of. -/
structure Enters (st : ChunkStore) (x : ChunkId) (l : TrackedDirectChunkLineage) : Prop where
  manifest : l.descendsFromManifest = false ∧ ∀ isStatic, l.lineage ≠ .rootFromManifest isStatic
  compacted : ∀ sources, l.lineage = .compactedFrom sources → ∀ s ∈ sources,
    st.leakyCompactions.lookup s = some x ∧ st.danglingSplits.lookup s = none
  split : ∀ source siblings, l.lineage = .splitFrom source siblings →
    st.references x = 0 ∧ (∃ l', st.entry source = some l' ∧ l'.lineage = .volatile) ∧
      ∃ g, st.danglingSplits.lookup source = some g ∧ x ∈ g ∧ ∀ s ∈ siblings, s ∈ g

/-- New entries next to old ones: what is recorded about referenced ids stays, and pieces stay
unreferenced. -/
theorem VolatileUpTo.grow (h : VolatileUpTo (fun _ => False) st)
    (hold : ∀ x l, st'.entry x = some l → (∃ l₀, st.entry x = some l₀ ∧ l.lineage = l₀.lineage ∧
      l.descendsFromManifest = l₀.descendsFromManifest) ∨ Enters st' x l)
    (hkept : ∀ x l₀, st.entry x = some l₀ → ∃ l, st'.entry x = some l ∧ l.lineage = l₀.lineage)
    (hrecords : ∀ x, 0 < st.references x → st'.leakyCompactions.lookup x = st.leakyCompactions.lookup x ∧
      st'.danglingSplits.lookup x = st.danglingSplits.lookup x)
    (hunreferenced : ∀ x, st'.IsPhysical x → st'.references x = 0)
    (hpieces : ∀ y l source siblings, st.entry y = some l → l.lineage = .splitFrom source siblings →
      st'.references y = st.references y)
    (hdangling : ∀ source g, st'.danglingSplits.lookup source = some g →
      st.danglingSplits.lookup source = some g ∨ g ≠ [] ∧ ∀ p ∈ g, ∃ l siblings,
        st'.entry p = some l ∧ l.lineage = .splitFrom source siblings ∧ ∀ q ∈ g, q = p ∨ q ∈ siblings)
    (hacyclic : ∃ rank : ChunkId → Nat, ∀ x y, st'.leakyCompactions.lookup x = some y → rank x < rank y) :
    VolatileUpTo (fun _ => False) st' := by
  have hreferenced : ∀ {x y l}, st.entry y = some l → x ∈ l.lineage.referencedChunks → 0 < st.references x :=
    fun hl hx => references_pos_iff.mpr ⟨_, _, hl, hx⟩
  refine ⟨fun x l hl => ?_, hunreferenced, fun y l sources hl hlin x hx => ?_,
    fun y l sources hl hlin x hx => ?_, fun y l source siblings hl hlin => ?_, fun source g hg => ?_, hacyclic⟩
  · rcases hold x l hl with ⟨l₀, hl₀, hlin, hdm⟩ | hnew
    · rw [hlin, hdm]
      exact h.manifest x l₀ hl₀
    · exact hnew.manifest
  · rcases hold y l hl with ⟨l₀, hl₀, hlin₀, -⟩ | hnew
    · have hlin' := hlin₀.symm.trans hlin
      rw [(hrecords x (hreferenced hl₀ (by rw [hlin']; exact hx))).1]
      exact h.compacted y l₀ sources hl₀ hlin' x hx
    · exact (hnew.compacted sources hlin x hx).1
  · rcases hold y l hl with ⟨l₀, hl₀, hlin₀, -⟩ | hnew
    · have hlin' := hlin₀.symm.trans hlin
      rw [(hrecords x (hreferenced hl₀ (by rw [hlin']; exact hx))).2]
      exact h.unsplit y l₀ sources hl₀ hlin' x hx
    · exact (hnew.compacted sources hlin x hx).2
  · rcases hold y l hl with ⟨l₀, hl₀, hlin₀, -⟩ | hnew
    · have hlin' := hlin₀.symm.trans hlin
      obtain ⟨href, ⟨ls, hls, hvol⟩, hg⟩ := h.split y l₀ source siblings hl₀ hlin'
      obtain ⟨ls', hls', hlins⟩ := hkept source ls hls
      refine ⟨(hpieces y l₀ source siblings hl₀ hlin').trans href, ⟨ls', hls', hlins.trans hvol⟩, .inr ?_⟩
      rw [(hrecords source (hreferenced hl₀ (by rw [hlin']; exact mem_singleton_self source))).2]
      exact hg.resolve_left id
    · obtain ⟨href, hsource, hg⟩ := hnew.split source siblings hlin
      exact ⟨href, hsource, .inr hg⟩
  · refine ⟨id, ?_⟩
    rcases hdangling source g hg with hg₀ | hnew
    · obtain ⟨-, hne, hall⟩ := h.dangling source g hg₀
      refine ⟨hne, fun p hp => ?_⟩
      obtain ⟨l₀, siblings, hl₀, hlin, hgroup⟩ := hall p hp
      obtain ⟨l, hl, hlin'⟩ := hkept p l₀ hl₀
      exact ⟨l, siblings, hl, hlin'.trans hlin, hgroup⟩
    · exact hnew

theorem VolatileUpTo.ensureLineage (h : VolatileUpTo (fun _ => False) st) {id : ChunkId}
    (hid : st.entry id = none) : VolatileUpTo (fun _ => False) (st.ensureLineage id .volatile) ∧
      (∀ x, (st.ensureLineage id .volatile).references x = st.references x) ∧
      (∃ l, (st.ensureLineage id .volatile).entry id = some l ∧ l.lineage = .volatile) := by
  have hentry : ∀ x, (st.ensureLineage id .volatile).entry x =
      if x = id then some ⟨.volatile, 0, false⟩ else st.entry x := by
    intro x
    refine (insertLineageIfMissing_entry .volatile hid x).trans ?_
    cases hx : (if x = id then some (⟨.volatile, 0, false⟩ : TrackedDirectChunkLineage) else st.entry x) with
    | none => exact congrArg _ hx
    | some l => exact congrArg _ hx
  have hrefs : ∀ x, (st.ensureLineage id .volatile).references x = st.references x := fun x =>
    insertLineageIfMissing_references hid x
  obtain ⟨hleaky, -, hdangling⟩ := insertLineageIfMissing_maps st.toLineageDroppingCtx id .volatile
  have hleaky' : (st.ensureLineage id .volatile).leakyCompactions = st.leakyCompactions := hleaky
  have hdangling' : (st.ensureLineage id .volatile).danglingSplits = st.danglingSplits := hdangling
  refine ⟨h.grow (fun x l hl => ?_) (fun x l₀ hl₀ => ?_) (fun x _ => by rw [hleaky', hdangling']; exact ⟨rfl, rfl⟩)
    (fun x hx => (hrefs x).trans (h.unreferenced x hx)) (fun y _ _ _ _ _ => hrefs y)
    (fun source g hg => .inl (by rw [← hdangling']; exact hg)) ?_, hrefs, _, (hentry id).trans (if_pos rfl), rfl⟩
  · rw [hentry] at hl
    split at hl
    · cases hl
      refine .inr ⟨⟨rfl, fun _ => by simp⟩, fun _ heq => ?_, fun _ _ heq => ?_⟩
      · cases heq
      · cases heq
    · exact .inl ⟨l, hl, rfl, rfl⟩
  · have hne : x ≠ id := by
      rintro rfl
      rw [hid] at hl₀
      cases hl₀
    exact ⟨l₀, (hentry x).trans ((if_neg hne).trans hl₀), rfl⟩
  · obtain ⟨rank, hrank⟩ := h.acyclic
    exact ⟨rank, fun x y hxy => hrank x y (by rw [← hleaky']; exact hxy)⟩

theorem VolatileUpTo.storePhysical (h : VolatileUpTo (fun _ => False) st) (hrefs : st.references c.id = 0) :
    VolatileUpTo (fun _ => False) (st.storePhysical c) := by
  have hentry : ∀ x, (st.storePhysical c).entry x = (st.entry x).map (gain (if x = c.id then 1 else 0)) :=
    addReference_entry st.toLineageDroppingCtx c.id
  have hsame : ∀ x, (st.storePhysical c).references x = st.references x :=
    addReference_references st.toLineageDroppingCtx c.id
  refine h.grow (fun x l hl => .inl ?_) (fun x l₀ hl₀ => ?_) (fun x _ => ⟨rfl, rfl⟩) (fun x hx => ?_)
    (fun y _ _ _ _ _ => hsame y) (fun source g hg => .inl hg) h.acyclic
  · rw [hentry] at hl
    obtain ⟨l₀, hl₀, rfl⟩ := map_eq_some_iff.mp hl
    exact ⟨l₀, hl₀, rfl, rfl⟩
  · rw [hentry, hl₀]
    exact ⟨_, rfl, rfl⟩
  · rw [hsame]
    have hphys : (st.storePhysical c).physical x = if x = c.id then some c else st.physical x :=
      Assoc.lookup_insert_ite _ _ _ _
    by_cases hxc : x = c.id
    · rw [hxc, hrefs]
    · refine h.unreferenced x ?_
      have hsome : ((st.storePhysical c).physical x).isSome := hx
      rw [hphys, if_neg hxc] at hsome
      exact hsome

theorem foldl_storePiece_records (c : Chunk) (pieces : List Chunk) : ∀ (ps : List Chunk) (st : ChunkStore),
    (ps.foldl (storePiece c pieces) st).leakyCompactions = st.leakyCompactions ∧
      (ps.foldl (storePiece c pieces) st).danglingSplits = st.danglingSplits
  | [], _ => ⟨rfl, rfl⟩
  | p :: ps, st => by
    obtain ⟨hleaky, -, hdangling⟩ := insertLineageIfMissing_maps st.toLineageDroppingCtx p.id
      (.splitFrom c.id ((pieces.filter fun q => q.id ≠ p.id).map (·.id)))
    obtain ⟨h1, h2⟩ := foldl_storePiece_records c pieces ps (storePiece c pieces st p)
    exact ⟨h1.trans hleaky, h2.trans hdangling⟩

theorem VolatileUpTo.pieces (h : VolatileUpTo (fun _ => False) st) {ps : List Chunk} (hnodup : (ps.map (·.id)).Nodup)
    (hps : ∀ p ∈ ps, ¬ st.Mentions p.id ∧ p.id ≠ c.id) (hne : ps ≠ []) (habsent : st.physical c.id = none)
    (hrefs : st.references c.id = 0) (hl : st.entry c.id = some l) (hvol : l.lineage = .volatile) :
    VolatileUpTo (fun _ => False) (ps.foldl (storePiece c ps) (st.recordSplit c ps)) := by
  have hav : ∀ p ∈ ps, Available st p.id := fun p hp => .of_not_mentions (hps p hp).1
  have hsplit := foldl_storePiece_splitInto c ps ps (st.recordSplit c ps) hnodup
    fun p hp => ⟨(hav p hp).entry, (hps p hp).2⟩
  obtain ⟨hleaky, hdangling⟩ := foldl_storePiece_records c ps ps (st.recordSplit c ps)
  have hphys := fun x => foldl_storePiece_physical c ps x ps (st.recordSplit c ps)
  generalize ps.foldl (storePiece c ps) (st.recordSplit c ps) = st' at hsplit hleaky hdangling hphys ⊢
  have hleaky' : st'.leakyCompactions = st.leakyCompactions := hleaky
  have hdangling' : ∀ x, st'.danglingSplits.lookup x =
      if x = c.id then some (ps.map (·.id)) else st.danglingSplits.lookup x := fun x => by
    rw [hdangling]
    exact Assoc.lookup_insert_ite _ _ _ _
  have hentry : ∀ x, st'.entry x = if x ∈ ps.map (·.id) then
      some ⟨.splitFrom c.id ((ps.filter fun q => q.id ≠ x).map (·.id)), 1, st.descendsFromManifest c.id⟩
      else (st.entry x).map (gain (if x = c.id then (ps.map (·.id)).length else 0)) := hsplit.entry
  have hreferences : ∀ x, st'.references x = st.references x + if x = c.id then (ps.map (·.id)).length else 0 :=
    hsplit.references
  have hnew : ∀ {x}, x ∈ ps.map (·.id) → ¬ st.Mentions x ∧ x ≠ c.id := by
    intro x hx
    obtain ⟨p, hp, rfl⟩ := List.mem_map.mp hx
    exact hps p hp
  have hunmentioned : ∀ {x}, ¬ st.Mentions x → st.references x = 0 := by
    intro x hx
    by_contra hpos
    obtain ⟨y, ly, hly, hmem⟩ := references_pos_iff.mp (Nat.pos_of_ne_zero hpos)
    exact hx (.referenced hly hmem)
  have hkept : ∀ x l₀, st.entry x = some l₀ → ∃ l, st'.entry x = some l ∧ l.lineage = l₀.lineage := by
    intro x l₀ hl₀
    have hx : x ∉ ps.map (·.id) := fun hx => (hnew hx).1 (.tracked hl₀)
    rw [hentry, if_neg hx, hl₀]
    exact ⟨_, rfl, rfl⟩
  have hdm : st.descendsFromManifest c.id = false := by
    show (st.entry c.id).any _ = false
    rw [hl]
    exact (h.manifest c.id l hl).1
  have hothers : ∀ {x q : ChunkId}, q ∈ ps.map (·.id) → q = x ∨ q ∈ (ps.filter fun q => q.id ≠ x).map (·.id) := by
    intro x q hq
    by_cases hqx : q = x
    · exact .inl hqx
    · obtain ⟨p, hp, rfl⟩ := List.mem_map.mp hq
      exact .inr (mem_map_of_mem (mem_filter.mpr ⟨hp, decide_eq_true hqx⟩))
  refine h.grow (fun x lx hlx => ?_) hkept (fun x hx => ⟨by rw [hleaky'], ?_⟩) (fun x hx => ?_)
    (fun y ly source siblings hly hlin => ?_) (fun source g hg => ?_) (by rw [hleaky']; exact h.acyclic)
  · rw [hentry] at hlx
    split at hlx
    · rename_i hx
      cases hlx
      refine .inr ⟨⟨hdm, fun _ => by simp⟩, fun _ heq => ?_, fun source siblings heq => ?_⟩
      · cases heq
      · obtain ⟨rfl, rfl⟩ := ChunkDirectLineage.splitFrom.inj heq
        refine ⟨?_, ?_, _, (hdangling' c.id).trans (if_pos rfl), hx, fun s hs => ?_⟩
        · rw [hreferences, hunmentioned (hnew hx).1, if_neg (hnew hx).2]
        · obtain ⟨l', hl', hlin⟩ := hkept c.id l hl
          exact ⟨l', hl', hlin.trans hvol⟩
        · obtain ⟨q, hq, rfl⟩ := List.mem_map.mp hs
          exact mem_map_of_mem (mem_of_mem_filter hq)
    · obtain ⟨l₀, hl₀, rfl⟩ := map_eq_some_iff.mp hlx
      exact .inl ⟨l₀, hl₀, rfl, rfl⟩
  · have hne : x ≠ c.id := by
      rintro rfl
      omega
    rw [hdangling', if_neg hne]
  · have hne : x ≠ c.id := by
      rintro rfl
      rcases (hphys c.id).mp hx with hmem | hsome
      · exact (hnew hmem).2 rfl
      · have hnone : (st.recordSplit c ps).physical c.id = none := habsent
        rw [hnone] at hsome
        cases hsome
    rw [hreferences, if_neg hne, Nat.add_zero]
    rcases (hphys x).mp hx with hmem | hsome
    · exact hunmentioned (hnew hmem).1
    · exact h.unreferenced x hsome
  · have hne : y ≠ c.id := by
      rintro rfl
      rw [mem_unique hl hly, hlin] at hvol
      cases hvol
    rw [hreferences, if_neg hne, Nat.add_zero]
  · rw [hdangling'] at hg
    split at hg
    · rename_i hsource
      cases hg
      refine .inr ⟨by simpa using hne, fun p hp => ?_⟩
      exact ⟨_, _, (hentry p).trans (if_pos hp), by rw [hsource], fun q hq => hothers hq⟩
    · exact .inl hg

theorem VolatileUpTo.merged {elected m : Chunk} (h : VolatileUpTo (fun _ => False) st)
    (hst' : CompactedInto st c elected m st') (hm : ¬ st.Mentions m.id) (hmc : m.id ≠ c.id)
    (habsent : st.physical c.id = none) (hrefs : st.references c.id = 0)
    (hundangling : st.danglingSplits.lookup c.id = none) (hl : st.entry c.id = some l) (hvol : l.lineage = .volatile)
    (helected : st.physical elected.id = some elected) (hne : c.id ≠ elected.id)
    (hroot : st.descendsFromASplit elected.id = false) : VolatileUpTo (fun _ => False) st' := by
  have hmne : m.id ≠ elected.id := by
    intro heq
    exact hm (heq ▸ .physical helected)
  have hunreferenced : st.references elected.id = 0 :=
    h.unreferenced elected.id (isSome_of_eq_some helected)
  -- no split is recorded of the neighbour: its pieces would refer to it
  have hwhole : st.danglingSplits.lookup elected.id = none := by
    refine eq_none_iff_forall_ne_some.mpr fun g hg => ?_
    obtain ⟨-, hg₀, hpieces⟩ := h.dangling elected.id g hg
    obtain ⟨p, hp⟩ := exists_mem_of_ne_nil g hg₀
    obtain ⟨lp, siblings, hlp, hlin, -⟩ := hpieces p hp
    have := references_pos_iff.mpr ⟨p, lp, hlp, by rw [hlin]; exact mem_singleton_self elected.id⟩
    omega
  have hsource : ∀ {x}, x ∈ (compactionSources c elected).map Chunk.id ↔ x = c.id ∨ x = elected.id :=
    mem_compactionSources hne
  have hdm : ∀ x, st.descendsFromManifest x = false := by
    intro x
    show (st.entry x).any _ = false
    cases hx : st.entry x with
    | none => rfl
    | some lx => exact (h.manifest x lx hx).1
  refine h.grow (fun x lx hlx => ?_) (fun x l₀ hl₀ => ?_) (fun x hx => ?_) (fun x hx => ?_)
    (fun y ly source siblings hly hlin => ?_) (fun source g hg => .inl ?_) ?_
  · rw [hst'.entry] at hlx
    split at hlx
    · rename_i hx
      cases hlx
      refine .inr ⟨⟨?_, fun _ => by simp⟩, fun sources heq s hs => ?_, fun _ _ heq => ?_⟩
      · exact List.any_eq_false.mpr fun x _ => by rw [hdm x]; simp
      · obtain rfl := ChunkDirectLineage.compactedFrom.inj heq
        rw [hst'.leaky, if_pos (hsource.mp hs), hst'.dangling, hx]
        refine ⟨rfl, ?_⟩
        rcases hsource.mp hs with rfl | rfl
        · exact hundangling
        · exact hwhole
      · cases heq
    · obtain ⟨l₀, hl₀, rfl⟩ := map_eq_some_iff.mp hlx
      exact .inl ⟨l₀, hl₀, rfl, rfl⟩
  · have hx : x ≠ m.id := by
      rintro rfl
      exact hm (.tracked hl₀)
    rw [hst'.entry, if_neg hx, hl₀]
    exact ⟨_, rfl, rfl⟩
  · have hx' : ¬ (x = c.id ∨ x = elected.id) := by
      rintro (rfl | rfl)
      · omega
      · omega
    rw [hst'.leaky, if_neg hx', hst'.dangling]
    exact ⟨rfl, rfl⟩
  · have hsome : (st'.physical x).isSome := hx
    rw [hst'.physical] at hsome
    by_cases hxm : x = m.id
    · have hzero : st.references m.id = 0 := by
        by_contra hpos
        obtain ⟨y, ly, hly, hmem⟩ := references_pos_iff.mp (Nat.pos_of_ne_zero hpos)
        exact hm (.referenced hly hmem)
      rw [hxm, hst'.references, hzero, if_neg (not_or.mpr ⟨hmc, hmne⟩)]
    · rw [if_neg hxm] at hsome
      by_cases hxe : x = elected.id
      · rw [if_pos hxe] at hsome
        cases hsome
      · rw [if_neg hxe] at hsome
        have hxc : x ≠ c.id := by
          rintro rfl
          rw [habsent] at hsome
          cases hsome
        rw [hst'.references, if_neg (not_or.mpr ⟨hxc, hxe⟩)]
        exact h.unreferenced x hsome
  · have hy : ¬ (y = c.id ∨ y = elected.id) := by
      rintro (rfl | rfl)
      · rw [mem_unique hl hly, hlin] at hvol
        cases hvol
      · have hdirect : st.directLineage elected.id = some (.splitFrom source siblings) :=
          (congrArg (Option.map _) hly).trans (congrArg some hlin)
        unfold descendsFromASplit at hroot
        rw [hdirect] at hroot
        cases hroot
    rw [hst'.references, if_neg hy, Nat.add_zero]
  · rw [← hst'.dangling]
    exact hg
  · obtain ⟨rank, hrank⟩ := h.acyclic
    refine ⟨fun x => if x = m.id then rank c.id + rank elected.id + 1 else rank x, fun x y hxy => ?_⟩
    rw [hst'.leaky] at hxy
    split at hxy
    · rename_i hx
      cases hxy
      have hxm : x ≠ m.id := by
        rintro rfl
        exact hx.elim hmc hmne
      simp only [if_neg hxm, if_true]
      rcases hx with rfl | rfl
      · omega
      · omega
    · have hxm : x ≠ m.id := by
        rintro rfl
        exact hm (.leaky hxy)
      have hym : y ≠ m.id := by
        rintro rfl
        exact hm (.compacted hxy)
      simp only [if_neg hxm, if_neg hym]
      exact hrank x y hxy

theorem Mentions.of_ensureLineage {id x : ChunkId} (hid : st.entry id = none)
    (h : (st.ensureLineage id .volatile).Mentions x) : st.Mentions x ∨ x = id := by
  have hentry : ∀ {y l}, (st.ensureLineage id .volatile).entry y = some l →
      y = id ∧ l.lineage = .volatile ∨ ∃ l₀, st.entry y = some l₀ ∧ l.lineage = l₀.lineage := by
    intro y l hl
    obtain ⟨l₀, hl₀, rfl⟩ := map_eq_some_iff.mp ((insertLineageIfMissing_entry .volatile hid y).symm.trans hl)
    split at hl₀
    · cases hl₀
      exact .inl ⟨‹_›, rfl⟩
    · exact .inr ⟨l₀, hl₀, rfl⟩
  obtain ⟨hleaky, -, hdangling⟩ := insertLineageIfMissing_maps st.toLineageDroppingCtx id .volatile
  have hleaky' : (st.ensureLineage id .volatile).leakyCompactions = st.leakyCompactions := hleaky
  have hdangling' : (st.ensureLineage id .volatile).danglingSplits = st.danglingSplits := hdangling
  cases h with
  | physical h => exact .inl (.physical h)
  | listed h => exact .inl (.listed h)
  | ranked h => exact .inl (.ranked h)
  | static h => exact .inl (.static h)
  | tracked h => exact (hentry h).elim (fun h' => .inr h'.1) fun ⟨l₀, hl₀, _⟩ => .inl (.tracked hl₀)
  | referenced h hx =>
    rcases hentry h with ⟨-, hlin⟩ | ⟨l₀, hl₀, hlin⟩
    · simp [hlin, referencedChunks] at hx
    · exact .inl (.referenced hl₀ (hlin ▸ hx))
  | sibling h hx =>
    rcases hentry h with ⟨-, hlin⟩ | ⟨l₀, hl₀, hlin⟩
    · simp [hlin, ChunkDirectLineage.siblings] at hx
    · exact .inl (.sibling hl₀ (hlin ▸ hx))
  | leaky h => exact .inl (.leaky (hleaky' ▸ h))
  | compacted h => exact .inl (.compacted (hleaky' ▸ h))
  | dangling h => exact .inl (.dangling (hdangling' ▸ h))
  | piece h hx => exact .inl (.piece (hdangling' ▸ h) hx)

/-- A store that a chunk can be stored in: nothing is left of the chunk but an entry that waits for its
first reference. -/
structure ReadyFor (env : Env) (c : Chunk) (st : ChunkStore) : Prop where
  sound : st.catalog.Sound
  absent : st.physical c.id = none
  tracked : TrackedUpTo (fun x => x = c.id) st
  volatile : VolatileUpTo (fun _ => False) st
  unreferenced : st.references c.id = 0
  undangling : st.danglingSplits.lookup c.id = none
  entry : ∃ l, st.entry c.id = some l ∧ l.lineage = .volatile
  fresh : Fresh env st c

theorem prepared_readyFor {env : Env} (hv : st.catalog.Sound) (htracked : TrackedUpTo (fun _ => False) st)
    (hvol : VolatileUpTo (fun _ => False) st) (hwf : c.WellFormed) (hfresh : Fresh env st c)
    (hacc : st.Accepts c) : (st.prepared c).ReadyFor env c := by
  obtain ⟨-, habsent, -⟩ := sound_of_earlyReturn hwf hacc.2
  have hclean := cleanUp_spec hv habsent
  obtain ⟨hvol₁, hnone, hundangling⟩ := cleanUp_forgets hv htracked hvol hwf hacc
  obtain ⟨-, hrefs₁, -⟩ := (cleanUp_tracked hv habsent htracked).unknown hnone
  obtain ⟨hprepared, hsame, hentry⟩ := hvol₁.ensureLineage hnone
  refine ⟨hv.removes hclean.removes, hclean.removes.absent habsent,
    (prepared_tracked hv hacc habsent htracked).1, hprepared, (hsame c.id).trans hrefs₁, ?_, hentry, fun k => ?_⟩
  · rw [← hundangling]
    exact congrArg (AList.lookup c.id) (insertLineageIfMissing_maps _ c.id .volatile).2.2
  · refine ⟨fun hmentions => ?_, (hfresh k).2⟩
    rcases Mentions.of_ensureLineage hnone hmentions with hold | heq
    · exact (hfresh k).1 (hclean.mentions _ hold)
    · exact (hfresh k).2 heq

theorem insertChunk_volatile {env : Env} {c : ValidChunk} (hv : st.catalog.Sound) (h : st.Counted)
    (hvol : VolatileUpTo (fun _ => False) st) (hfresh : Fresh env st c.toChunk) :
    VolatileUpTo (fun _ => False) (insertChunk env st c.toChunk).1 := by
  refine insertChunk_elim hvol fun hacc => ?_
  obtain ⟨hins, -⟩ := insertChunk_cases hv c.wf hfresh hacc
  obtain ⟨-, habsent, -⟩ := sound_of_earlyReturn c.wf hacc.2
  have hready := prepared_readyFor hv h.tracked hvol c.wf hfresh hacc
  obtain ⟨l, hl, hlin⟩ := hready.entry
  generalize (insertChunk env st c.toChunk).1 = st' at hins
  cases hins with
  | pieces hstatic hsplit hlen =>
    refine hready.volatile.pieces hsplit.ids.nodup (fun p hp => ?_) (fun hnil => ?_) hready.absent
      hready.unreferenced hl hlin
    · obtain ⟨j, -, -, hid⟩ := hsplit.ids.mem p hp
      exact hid ▸ hready.fresh j
    · rw [hnil] at hlen
      simp at hlen
  | static hstatic =>
    have hover := insertStatic_overwrites hready.absent .volatile
    have htracked' := (insertStatic_tracked hready.tracked hready.absent (prepared_roots hv hacc habsent h)).1
    have hshrunk := hready.volatile.shrinks hover.lineage htracked' (fun x hx => ?_) fun x hx => ?_
    · exact hshrunk.storePhysical (hover.lineage.references_eq_zero hready.unreferenced)
    · have hsome : (((st.prepared c.toChunk).insertStatic c.toChunk .volatile).1.catalog.chunks x).isSome := hx
      show ((st.prepared c.toChunk).catalog.chunks x).isSome
      rwa [← hover.removes.isSome_of hsome]
    · rw [hx]
      exact hready.undangling
  | temporal hstatic hkeeps =>
    have hindexed : VolatileUpTo (fun _ => False) ((st.prepared c.toChunk).indexChunk c.toChunk) :=
      ⟨hready.volatile.manifest, hready.volatile.unreferenced, hready.volatile.compacted, hready.volatile.unsplit,
        hready.volatile.split, hready.volatile.dangling, hready.volatile.acyclic⟩
    exact hindexed.storePhysical hready.unreferenced
  | @merged elected m hstatic hkeeps helected hne hconcat hroot hid hmerge hsorted =>
    obtain ⟨j, hj⟩ := hid
    obtain ⟨hm, hmc⟩ := hj ▸ hready.fresh j
    exact hready.volatile.merged (merged_compactedInto hready.tracked helected hne (.of_not_mentions hm) hmc) hm
      hmc hready.absent hready.unreferenced hready.undangling hl hlin helected hne hroot

end ChunkStore

end Dalaran
