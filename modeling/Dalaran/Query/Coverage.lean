import Dalaran.Store.Ghosts
import Dalaran.Query.Filing

/-
  What the events of a call tell a query cache.

  A cache learns from events which static components and which component ranges a
  call touched. `Covers` says that this is enough: where nothing at or before a time
  is touched, the physical chunks that start by then, the listings up to then and
  what static data points at are what they were. A compaction reports the new chunk
  only, which has a cell wherever the chunk it replaces has one, if it loses no
  column. A pointer to a chunk that is not loaded can go without an event.

  Correspondence (Rust ↔ Lean):
    the events a call returns, as `QueryCache::on_events` reads them ↔ `Call.run_covers`
-/

namespace Dalaran

open List Option Assoc

def TouchesAt (diffs : List ChunkStoreDiff) (key : EntityPath × TimelineName × ComponentIdentifier)
    (t : TimeInt) : Prop :=
  ∃ diff ∈ diffs, ∃ r, (key, r) ∈ diff.latestAtRanges ∧ r.min ≤ t

def TouchesStatic (diffs : List ChunkStoreDiff) (key : EntityPath × ComponentIdentifier) : Prop :=
  ∃ diff ∈ diffs, key ∈ diff.staticComponents

/-- The diffs touch what a chunk has: its static components, and its ranges where `keeps` holds. -/
structure AccountsFor (keeps : Prop) (diffs : List ChunkStoreDiff) (c : Chunk) : Prop where
  temporal : keeps → ∀ timeline component r, c.componentRange timeline component = some r →
    TouchesAt diffs (c.entityPath, timeline, component) r.min
  static : c.isStatic = true → ∀ component, (c.components.lookup component).isSome →
    TouchesStatic diffs (c.entityPath, component)

variable {keeps keeps' : Prop} {diffs more : List ChunkStoreDiff} {c : Chunk}

theorem TouchesAt.mono {key : EntityPath × TimelineName × ComponentIdentifier} {t : TimeInt}
    (h : TouchesAt diffs key t) (hsub : diffs ⊆ more) : TouchesAt more key t := by
  obtain ⟨diff, hdiff, hr⟩ := h
  exact ⟨diff, hsub hdiff, hr⟩

theorem TouchesStatic.mono {key : EntityPath × ComponentIdentifier} (h : TouchesStatic diffs key)
    (hsub : diffs ⊆ more) : TouchesStatic more key := by
  obtain ⟨diff, hdiff, hkey⟩ := h
  exact ⟨diff, hsub hdiff, hkey⟩

theorem AccountsFor.mono (h : AccountsFor keeps diffs c) (hsub : diffs ⊆ more) : AccountsFor keeps more c :=
  ⟨fun hkeeps timeline component r hr => (h.temporal hkeeps timeline component r hr).mono hsub,
    fun hstatic component hcol => (h.static hstatic component hcol).mono hsub⟩

theorem accountsFor_of_mem {diff : ChunkStoreDiff} (hdiff : diff ∈ diffs)
    (hranges : diff.latestAtRanges = c.componentRanges)
    (hstatic : c.isStatic = true → diff.staticComponents =
      c.components.keys.map fun component => (c.entityPath, component)) : AccountsFor keeps diffs c := by
  refine ⟨fun _ timeline component r hr => ⟨diff, hdiff, r, ?_, le_rfl⟩, fun hs component hcol => ⟨diff, hdiff, ?_⟩⟩
  · rw [hranges]
    exact Chunk.mem_componentRanges.mpr ⟨rfl, hr⟩
  · rw [hstatic hs]
    exact mem_map.mpr ⟨component, mem_keys_iff.mpr (isSome_iff_exists.mp hcol), rfl⟩

theorem accountsFor_deletion {reason : ChunkDeletionReason} (h : .deletion ⟨c, reason⟩ ∈ diffs) :
    AccountsFor keeps diffs c := by
  refine accountsFor_of_mem h rfl fun hstatic => ?_
  exact if_pos hstatic

theorem accountsFor_addition (h : .addition c c .volatile ∈ diffs) : AccountsFor keeps diffs c := by
  refine accountsFor_of_mem h rfl fun hstatic => ?_
  exact if_pos hstatic

namespace Catalog

theorem AddsAll.listed_of : ∀ {cs : List Chunk} {v w : Catalog}, AddsAll cs v w → ∀ {id : ChunkId} {s : Slot},
    w.listed id s → (∃ c ∈ cs, id = c.id ∧ c.OwnSlot s) ∨ v.listed id s
  | [], _, _, h, _, _, hs => .inr (h ▸ hs)
  | c :: cs, _, _, ⟨u, hadd, hrest⟩, id, s, hs => by
    rcases hrest.listed_of hs with ⟨d, hd, hown⟩ | hs
    · exact .inl ⟨d, mem_cons_of_mem c hd, hown⟩
    · exact ((hadd.listed id s).mp hs).imp_left fun hown => ⟨c, mem_cons_self, hown⟩

theorem AddsAll.longest_le : ∀ {cs : List Chunk} {v w : Catalog}, AddsAll cs v w →
    ∀ key, v.longest key ≤ w.longest key
  | [], _, _, h, _ => h ▸ le_rfl
  | _ :: _, _, _, ⟨_, hadd, hrest⟩, key => (hadd.longest_le key).trans (hrest.longest_le key)

end Catalog

namespace ChunkStore

open Catalog

variable {st st' st'' : ChunkStore} {cs : List Chunk}

/-- The diffs tell of every change that a query could see. -/
structure Covers (keeps : Prop) (st : ChunkStore) (diffs : List ChunkStoreDiff) (st' : ChunkStore) : Prop where
  gone : ∀ id c, st.physical id = some c → st'.physical id ≠ some c → AccountsFor keeps diffs c
  came : ∀ id c, st'.physical id = some c → st.physical id ≠ some c → AccountsFor True diffs c
  listed : ∀ id e timeline component t, st'.ListedAt id (.component e timeline component .start t) →
    st.ListedAt id (.component e timeline component .start t) ∨ TouchesAt diffs (e, timeline, component) t
  longest : ∀ e timeline component,
    st.catalog.longest (e, timeline, component) ≤ st'.catalog.longest (e, timeline, component) ∨
      ∀ id t, st'.ListedAt id (.component e timeline component .start t) →
        TouchesAt diffs (e, timeline, component) t
  static : ∀ key, st'.staticChunkIdsPerEntity.lookup key ≠ st.staticChunkIdsPerEntity.lookup key →
    TouchesStatic diffs key ∨ ∃ id, st.staticChunkIdsPerEntity.lookup key = some id ∧ st.physical id = none

theorem Covers.of_eq (hcatalog : st'.catalog = st.catalog)
    (hstatic : st'.staticChunkIdsPerEntity = st.staticChunkIdsPerEntity) : Covers keeps st diffs st' := by
  have hphysical : st'.physical = st.physical := congrArg Catalog.chunks hcatalog
  have hlisted : st'.ListedAt = st.ListedAt := congrArg Catalog.listed hcatalog
  refine ⟨fun id c hc hne => ?_, fun id c hc hne => ?_, fun id e tl co t hs => ?_, fun e tl co => ?_,
    fun key hne => ?_⟩
  · rw [hphysical] at hne
    exact absurd hc hne
  · rw [hphysical] at hc
    exact absurd hc hne
  · rw [hlisted] at hs
    exact .inl hs
  · rw [hcatalog]
    exact .inl le_rfl
  · rw [hstatic] at hne
    exact absurd rfl hne

theorem Covers.static_gone (h : st.WellFiled) (hcovers : Covers keeps st diffs st') {e : EntityPath}
    {component : ComponentIdentifier} {id : ChunkId}
    (hid : st.staticChunkIdsPerEntity.lookup (e, component) = some id) (hc : st.physical id = some c)
    (hgone : st'.physical id ≠ some c) : TouchesStatic diffs (e, component) := by
  have hserves := h.served e component id c hid hc
  have htouched := (hcovers.gone id c hc hgone).static hserves.static component hserves.column
  rw [hserves.entityPath] at htouched
  exact htouched

theorem Covers.trans (h : st.WellFiled) (h₁ : Covers keeps st diffs st') (h₂ : Covers keeps st' more st'') :
    Covers keeps st (diffs ++ more) st'' := by
  have hleft : diffs ⊆ diffs ++ more := subset_append_left diffs more
  have hright : more ⊆ diffs ++ more := subset_append_right diffs more
  refine ⟨fun id c hc hne => ?_, fun id c hc hne => ?_, fun id e tl co t hs => ?_, fun e tl co => ?_,
    fun key hne => ?_⟩
  · by_cases hmid : st'.physical id = some c
    · exact (h₂.gone id c hmid hne).mono hright
    · exact (h₁.gone id c hc hmid).mono hleft
  · by_cases hmid : st'.physical id = some c
    · exact (h₁.came id c hmid hne).mono hleft
    · exact (h₂.came id c hc hmid).mono hright
  · rcases h₂.listed id e tl co t hs with hs' | htouched
    · exact (h₁.listed id e tl co t hs').imp_right fun htouched => htouched.mono hleft
    · exact .inr (htouched.mono hright)
  · rcases h₂.longest e tl co with hle | htouched
    · rcases h₁.longest e tl co with hle' | htouched'
      · exact .inl (hle'.trans hle)
      · refine .inr fun id t hs => ?_
        rcases h₂.listed id e tl co t hs with hs' | htouched
        · exact (htouched' id t hs').mono hleft
        · exact htouched.mono hright
    · exact .inr fun id t hs => (htouched id t hs).mono hright
  · by_cases hmid : st'.staticChunkIdsPerEntity.lookup key = st.staticChunkIdsPerEntity.lookup key
    · rw [← hmid] at hne
      rcases h₂.static key hne with htouched | ⟨id, hid, habsent⟩
      · exact .inl (htouched.mono hright)
      · rw [hmid] at hid
        cases hc : st.physical id with
        | none => exact .inr ⟨id, hid, hc⟩
        | some c =>
          refine .inl ((h₁.static_gone h hid hc fun hc' => ?_).mono hleft)
          rw [habsent] at hc'
          cases hc'
    · exact (h₁.static key hmid).imp_left fun htouched => htouched.mono hleft

/-! ## Removals and additions -/

theorem Covers.imp (h : Covers keeps st diffs st') (himp : keeps' → keeps) : Covers keeps' st diffs st' :=
  ⟨fun id c hc hne => ⟨fun hkeeps => (h.gone id c hc hne).temporal (himp hkeeps), (h.gone id c hc hne).static⟩,
    h.came, h.listed, h.longest, h.static⟩

theorem covers_of_refined {v : Catalog} (hremoves : Removes st.catalog v) (hadds : AddsAll cs v st'.catalog)
    (hnew : ∀ c ∈ cs, st.physical c.id = none) (hcame : ∀ c ∈ cs, AccountsFor True diffs c)
    (hgone : ∀ id c, st.physical id = some c → st'.physical id = none → AccountsFor keeps diffs c)
    (hstatic : ∀ key, st'.staticChunkIdsPerEntity.lookup key ≠ st.staticChunkIdsPerEntity.lookup key →
      TouchesStatic diffs key) : Covers keeps st diffs st' := by
  refine ⟨fun id c hc hne => ?_, fun id c hc hne => ?_, fun id e tl co t hs => ?_, fun e tl co => ?_,
    fun key hne => .inl (hstatic key hne)⟩
  · have hid : id ∉ cs.map (·.id) := by
      intro hmem
      obtain ⟨d, hd, rfl⟩ := mem_map.mp hmem
      rw [hnew d hd] at hc
      cases hc
    have hsame : st'.physical id = v.chunks id := (hadds.spares hid).1
    rcases hremoves.chunks id with hkept | hnone
    · exact absurd (hsame.trans (hkept.trans hc)) hne
    · exact hgone id c hc (hsame.trans hnone)
  · rcases hadds.chunks_of hc with ⟨hmem, -⟩ | hold
    · exact hcame c hmem
    · exact absurd ((hremoves.isSome_of (isSome_of_eq_some hold)).symm.trans hold) hne
  · rcases @AddsAll.listed_of cs _ _ hadds id (.component e tl co .start t) hs with
      ⟨c, hmem, -, he, r, hr, ht⟩ | hold
    · right
      rw [he, ht]
      exact (hcame c hmem).temporal trivial tl co r hr
    · exact .inl (hremoves.listed_of id (.component e tl co .start t) hold)
  · left
    rw [← hremoves.longest]
    exact hadds.longest_le _

theorem covers_of_removes (h : Removes st.catalog st'.catalog)
    (hstatic : st'.staticChunkIdsPerEntity = st.staticChunkIdsPerEntity)
    (hgone : ∀ id c, st.physical id = some c → st'.physical id = none → AccountsFor keeps diffs c) :
    Covers keeps st diffs st' := by
  have hnone : AddsAll [] st'.catalog st'.catalog := rfl
  refine covers_of_refined h hnone (fun c hc => absurd hc not_mem_nil)
    (fun c hc => absurd hc not_mem_nil) hgone fun key hne => ?_
  rw [hstatic] at hne
  exact absurd rfl hne

theorem covers_of_addsAll (h : AddsAll cs st.catalog st'.catalog)
    (hstatic : st'.staticChunkIdsPerEntity = st.staticChunkIdsPerEntity)
    (hnew : ∀ c ∈ cs, st.physical c.id = none) (hcame : ∀ c ∈ cs, AccountsFor True diffs c) :
    Covers keeps st diffs st' := by
  refine covers_of_refined (.refl _) h hnew hcame (fun id c hc hnone => ?_) fun key hne => ?_
  · have hid : id ∉ cs.map (·.id) := by
      intro hmem
      obtain ⟨d, hd, rfl⟩ := mem_map.mp hmem
      rw [hnew d hd] at hc
      cases hc
    have hkept : st'.physical id = st.physical id := (h.spares hid).1
    rw [hkept, hc] at hnone
    cases hnone
  · rw [hstatic] at hne
    exact absurd rfl hne

theorem Evicts.mem_of_gone (h : Evicts st cs st') (hv : st.catalog.Sound) (hv' : st'.catalog.Sound)
    {id : ChunkId} (hc : st.physical id = some c) (hgone : st'.physical id = none) : c ∈ cs := by
  have hmem : c ∈ st.physicalChunks := mem_values.mpr ⟨id, hc⟩
  rcases mem_append.mp (h.mem_iff.mp hmem) with hmem | hmem
  · exact hmem
  · obtain ⟨id', hid'⟩ := mem_values.mp hmem
    obtain rfl : id = id' := (hv.id_eq id c hc).symm.trans (hv'.id_eq id' c hid')
    have hid : st'.physical id = some c := hid'
    rw [hgone] at hid
    cases hid

theorem removeChunksShallow_covers (hv : st.catalog.Sound) (chunks : List Chunk)
    (budget : Option (Nat → Bool)) (reason : ChunkDeletionReason) :
    Covers keeps st ((st.removeChunksShallow chunks budget reason).2.map ChunkStoreDiff.deletion)
      (st.removeChunksShallow chunks budget reason).1 := by
  refine covers_of_removes (removeChunksShallow_removes hv chunks budget reason).removes
    (removeChunksShallow_recedes st chunks budget reason).static fun id c hc hgone => ?_
  obtain rfl := hv.id_eq id c hc
  have hnamed := ((@removeShallowLoop_names reason budget chunks 0 st hv).1 c).mpr ⟨hc, hgone⟩
  obtain ⟨⟨_, reason'⟩, hdel, rfl⟩ := mem_map.mp hnamed
  exact accountsFor_deletion (mem_map_of_mem hdel)

theorem removeChunksDeep_covers (hv : st.catalog.Sound) {chunks : List Chunk}
    (hchunks : ∀ c ∈ chunks, st.physical c.id = some c) (reason : ChunkDeletionReason) :
    Covers keeps st ((st.removeChunksDeep chunks reason).2.map ChunkStoreDiff.deletion)
      (st.removeChunksDeep chunks reason).1 := by
  refine covers_of_removes (removeChunksDeep_removes hv chunks reason).removes
    (removeChunksDeep_recedes st chunks reason).static fun id c hc hgone => ?_
  obtain rfl := hv.id_eq id c hc
  have hnamed := (@removeChunksDeep_names st reason hv chunks hchunks c).mpr ⟨hc, hgone⟩
  obtain ⟨⟨_, reason'⟩, hdel, rfl⟩ := mem_map.mp hnamed
  exact accountsFor_deletion (mem_map_of_mem hdel)

theorem gc_covers (hv : st.catalog.Sound) (options : GarbageCollectionOptions) (clock : GcClock) :
    Covers keeps st (st.gc options clock).2 (st.gc options clock).1 := by
  refine covers_of_removes (gc_removes hv options clock).1 (gc_recedes st options clock).static
    fun id c hc hgone => ?_
  obtain rfl := hv.id_eq id c hc
  have hnamed := (gcReported_names hv c).mpr ⟨hc, hgone⟩
  rw [gc_events]
  exact accountsFor_deletion (mem_map_of_mem hnamed)

/-! ## Dropping an entity -/

theorem dropEntityPath_covers (h : st.WellFiled) (e : EntityPath) :
    Covers keeps st (st.dropEntityPath e).2 (st.dropEntityPath e).1 := by
  have hdrops := dropEntityPath_drops st e
  obtain ⟨cs, hevicts, hdiffs⟩ := dropEntityPath_evicts st e
  have hv := h.filed.sound
  have hv' := (dropEntityPath_wellFiled h e).filed.sound
  have hchunks : ∀ id, (st.dropEntityPath e).1.physical id =
      if id ∈ st.staticChunkIds e ∨ id ∈ st.temporalChunkIds e then none else st.physical id := hdrops.chunks
  have hgone : ∀ id c, st.physical id = some c → (st.dropEntityPath e).1.physical id = none →
      AccountsFor keeps (st.dropEntityPath e).2 c := by
    intro id c hc hnone
    rw [hdiffs]
    exact accountsFor_deletion (mem_map_of_mem (hevicts.mem_of_gone hv hv' hc hnone))
  refine ⟨fun id c hc hne => ?_, fun id c hc hne => ?_, fun id e' tl co t hs => ?_, fun e' tl co => ?_,
    fun key hne => ?_⟩
  · refine hgone id c hc ?_
    rw [hchunks] at hne ⊢
    split at hne
    · rw [if_pos ‹_›]
    · exact absurd hc hne
  · exact absurd (hdrops.physical_of hc).1 hne
  · exact .inl ((hdrops.listed id (.component e' tl co .start t)).mp hs).2
  · by_cases he : e' = e
    · exact .inr fun id t hs => absurd he ((hdrops.listed id (.component e' tl co .start t)).mp hs).1
    · rw [hdrops.longest (e', tl, co) he]
      exact .inl le_rfl
  · -- a pointer that goes names a chunk that goes, if it names one
    obtain ⟨e', component⟩ := key
    rw [(dropEntityPath_maps st e).2, lookup_retainKeys] at hne
    split at hne
    · exact absurd rfl hne
    · rename_i he
      have he' : e' = e := by
        by_contra hne'
        exact he (decide_eq_true hne')
      cases hid : st.staticChunkIdsPerEntity.lookup (e', component) with
      | none => exact absurd hid.symm hne
      | some id =>
        cases hc : st.physical id with
        | none => exact .inr ⟨id, rfl, hc⟩
        | some c =>
          have hmem : id ∈ st.staticChunkIds e := mem_staticChunkIds.mpr ⟨component, he' ▸ hid⟩
          have hnone : (st.dropEntityPath e).1.physical id = none := by
            rw [hchunks, if_pos (.inl hmem)]
          have hserves := h.served e' component id c hid hc
          have htouched := (hgone id c hc hnone).static hserves.static component hserves.column
          rw [hserves.entityPath] at htouched
          exact .inl htouched

/-! ## Manifests -/

theorem insertDlrManifest_covers (st : ChunkStore) (manifest : DlrManifest) :
    Covers keeps st (st.insertDlrManifest manifest).2 (st.insertDlrManifest manifest).1 := by
  have hannounces := insertDlrManifest_announces st manifest
  have hdiff : .virtualAddition manifest ∈ (st.insertDlrManifest manifest).2 := mem_singleton_self _
  have hphysical : (st.insertDlrManifest manifest).1.physical = st.physical := hannounces.chunks
  refine ⟨fun id c hc hne => ?_, fun id c hc hne => ?_, fun id e tl co t hs => ?_,
    fun e tl co => .inl (hannounces.longest_le _), fun key hne => ?_⟩
  · rw [hphysical] at hne
    exact absurd hc hne
  · rw [hphysical] at hc
    exact absurd hc hne
  · rcases (hannounces.listed id (.component e tl co .start t)).mp hs with hnew | hold
    · obtain ⟨entity, timeline, component, entry, hentry, rfl, rfl, rfl, rfl⟩ := hnew
      refine .inr ⟨_, hdiff, entry.timeRange, ?_, le_rfl⟩
      exact mem_map.mpr ⟨_, mem_toList.mpr hentry, rfl⟩
    · exact .inl hold
  · rw [insertDlrManifest_static] at hne
    cases hid : manifest.staticMap.lookup key with
    | none =>
      rw [hid, none_or] at hne
      exact absurd rfl hne
    | some id => exact .inl ⟨_, hdiff, mem_map.mpr ⟨(key, id), mem_toList.mpr hid, rfl⟩⟩

/-! ## Insertions -/

theorem cleanUp_covers (hv : st.catalog.Sound) (habsent : st.physical c.id = none) :
    Covers keeps st ((st.cleanUp c).2.map ChunkStoreDiff.deletion) (st.cleanUp c).1 := by
  have hclean := cleanUp_spec hv habsent
  have hfirst := withoutManifestEntries_cleanedUp habsent
  refine covers_of_removes hclean.removes hclean.static fun id d hd hgone => ?_
  -- the manifest's entries go first, and no chunk goes with them
  have hd' : (st.withoutManifestEntries c).physical id = some d := by
    have hsame : (st.withoutManifestEntries c).catalog.chunks = st.catalog.chunks := by
      rw [withoutManifestEntries_catalog habsent]
      split <;> rfl
    exact (congrFun hsame id).trans hd
  have hstart : ∀ root : Bool, (if root then st.removeChunksDeep [c] .virtualToPhysicalReplacement
      else (st, [])).1 = if root then (st.removeChunksDeep [c] .virtualToPhysicalReplacement).1 else st :=
    fun root => by cases root <;> rfl
  unfold withoutManifestEntries at hfirst hd'
  rw [← hstart] at hfirst hd'
  unfold cleanUp at hgone ⊢
  generalize (if st.isRootFromManifest c.id = true then
    st.removeChunksDeep [c] .virtualToPhysicalReplacement else (st, [])) = first at hfirst hd' hgone ⊢
  dsimp only at hgone ⊢
  split at hgone
  · rw [hd'] at hgone
    cases hgone
  · rename_i g hg
    have hv' : (first.1.withoutDangling c.id).catalog.Sound := hv.removes hfirst.removes
    have hid : d.id = id := hv'.id_eq id d hd'
    have hnamed := (@removeChunksDeep_names _ .danglingSplitCleanup hv' _
      (fun p hp => (mem_filterMap_physical hv' hp).2) d).mpr ⟨hid.symm ▸ hd', hid.symm ▸ hgone⟩
    obtain ⟨⟨_, reason'⟩, hdel, rfl⟩ := mem_map.mp hnamed
    refine accountsFor_deletion (mem_map.mpr ⟨_, mem_append_right _ hdel, rfl⟩)

theorem insertStatic_covers (hv : st.catalog.Sound) (hc : c.Sound) (hstatic : c.isStatic = true)
    (habsent : st.physical c.id = none) : Covers keeps st (st.insertStatic c .volatile).2
      ((st.insertStatic c .volatile).1.storePhysical c) := by
  have hover := insertStatic_overwrites habsent .volatile
  obtain ⟨cs, hevicts, hdiffs⟩ := insertStatic_evicts st c .volatile
  have hcame : AccountsFor True (st.insertStatic c .volatile).2 c := by
    rw [hdiffs]
    exact accountsFor_addition mem_cons_self
  have hadds : AddsAll [c] (st.insertStatic c .volatile).1.catalog
      ((st.insertStatic c .volatile).1.storePhysical c).catalog :=
    ⟨_, keep_adds hstatic _, storePhysical_catalog _ c⟩
  refine covers_of_refined hover.removes hadds (fun d hd => ?_) (fun d hd => ?_) (fun id d hd hgone => ?_)
    fun key hne => ?_
  · rw [mem_singleton.mp hd]
    exact habsent
  · rw [mem_singleton.mp hd]
    exact hcame
  · have hid : id ≠ c.id := by
      intro heq
      rw [heq, habsent] at hd
      cases hd
    have hgone' : (st.insertStatic c .volatile).1.physical id = none :=
      (hadds.spares fun hmem => hid (mem_singleton.mp hmem)).1.symm.trans hgone
    have hmem := hevicts.mem_of_gone hv (hv.removes hover.removes) hd hgone'
    rw [hdiffs]
    exact accountsFor_deletion (mem_cons_of_mem _ (mem_map_of_mem hmem))
  · obtain ⟨e, component⟩ := key
    have hmap : ((st.insertStatic c .volatile).1.storePhysical c).staticChunkIdsPerEntity =
        (staticUpdate st c).staticMap := hover.static
    rw [hmap] at hne
    rcases staticUpdate_lookup st hc e component with ⟨-, rfl, r, hr, -⟩ | ⟨hsame, -⟩
    · refine hcame.static hstatic component ?_
      unfold Chunk.cellRowIds at hr
      cases hcol : c.components.lookup component with
      | some column => rfl
      | none =>
        rw [hcol] at hr
        cases hr
    · exact absurd hsame hne

theorem recordCompaction_covers {env : Env} (hv : st.catalog.Sound) {elected m : Chunk}
    (helected : st.physical elected.id = some elected) (hm : st.physical m.id = none)
    (hmerge : m.MergeOf (elected.JoinsColumns env c) elected c) (htemporal : elected.isStatic = false)
    (hcells : ∀ timeline component i t, (m.components.lookup component).isSome →
      elected.HasCellAt timeline component i t → ∃ j, m.HasCellAt timeline component j t) :
    Covers (elected.JoinsColumns env c) st
      [.addition c m (.compactedFrom (compactionSources c elected))]
      (((st.indexChunk m).recordCompaction c elected m).storePhysical m) := by
  have hne : m.id ≠ elected.id := by
    intro heq
    rw [heq, helected] at hm
    cases hm
  obtain ⟨y, hremoves, hspares, -, -, hadds⟩ := recordCompaction_adds (c := c) hv helected hne
  have hstatic : (((st.indexChunk m).recordCompaction c elected m).storePhysical m).staticChunkIdsPerEntity =
      st.staticChunkIdsPerEntity :=
    (removeChunksDeep_recedes ((st.indexChunk m).recordSources c elected m) [elected] .compaction).static
  have hmtemporal : m.isStatic = false := hmerge.temporal htemporal
  have hcame : AccountsFor True [.addition c m (.compactedFrom (compactionSources c elected))] m := by
    refine accountsFor_of_mem mem_cons_self rfl fun hs => ?_
    rw [hmtemporal] at hs
    cases hs
  have hsound := hv.chunk _ _ helected
  have hreplaced : AccountsFor (elected.JoinsColumns env c) [.addition c m (.compactedFrom (compactionSources c elected))] elected := by
    refine ⟨fun hjoins tl co r hr => ?_, fun hs => ?_⟩
    · have hrange : ∃ r', m.componentRange tl co = some r' ∧ r'.min ≤ r.min := by
        obtain ⟨tc, htc, hbind⟩ := bind_eq_some_iff.mp hr
        obtain ⟨column, hcol, -⟩ := bind_eq_some_iff.mp hbind
        have hco : (m.components.lookup co).isSome := hmerge.components hjoins co (.inl (isSome_of_eq_some hcol))
        by_cases hcell : ∃ i t, elected.HasCellAt tl co i t
        · obtain ⟨i, t, hit⟩ := hcell
          obtain ⟨-, -, i', lo, hlo, hmin⟩ := Chunk.componentRange_min_le hsound.wf hr hit
          obtain ⟨j, hj⟩ := hcells tl co i' lo hco hlo
          obtain ⟨lo', hi', htight, -, -, hall⟩ := Chunk.componentRange_tight hmerge.wf hj
          refine ⟨_, htight, ?_⟩
          rw [hmin]
          exact (hall j lo hj).1
        · rw [Chunk.componentRange_of_all_null hsound.wf hsound.nonempty htc hcol hcell] at hr
          rw [← some.inj hr]
          have htl : (m.timelines.lookup tl).isSome := by
            rw [hmerge.timelines, htc]
            rfl
          obtain ⟨tc', htc'⟩ := isSome_iff_exists.mp htl
          obtain ⟨column', hcol'⟩ := isSome_iff_exists.mp hco
          by_cases hcell' : ∃ i t, m.HasCellAt tl co i t
          · obtain ⟨i, t, hit⟩ := hcell'
            obtain ⟨lo, hi, htight, -⟩ := Chunk.componentRange_tight hmerge.wf hit
            exact ⟨_, htight, TimeInt.le_MAX _⟩
          · exact ⟨_, Chunk.componentRange_of_all_null hmerge.wf hmerge.nonempty htc' hcol' hcell', le_rfl⟩
      obtain ⟨r', hr', hle⟩ := hrange
      obtain ⟨diff, hdiff, r'', hmem, hle'⟩ := hcame.temporal trivial tl co r' hr'
      rw [hmerge.entityPath] at hmem
      exact ⟨diff, hdiff, r'', hmem, hle'.trans hle⟩
    · rw [htemporal] at hs
      cases hs
  have hall : AddsAll [m] y (((st.indexChunk m).recordCompaction c elected m).storePhysical m).catalog :=
    ⟨_, hadds, rfl⟩
  refine covers_of_refined hremoves hall (fun d hd => ?_) (fun d hd => ?_) (fun id d hd hgone => ?_)
    fun key hne => ?_
  · rw [mem_singleton.mp hd]
    exact hm
  · rw [mem_singleton.mp hd]
    exact hcame
  · -- only the elected chunk goes
    by_cases hid : id = elected.id
    · rw [hid, helected] at hd
      rw [← some.inj hd]
      exact hreplaced
    · have hid' : id ≠ m.id := by
        intro heq
        rw [heq, hm] at hd
        cases hd
      have hkept : y.chunks id = st.physical id := (hspares id fun ⟨d', hd', heq⟩ => hid (by
        rw [← heq, mem_singleton.mp hd'])).1
      have hgone' := (hall.spares fun hmem => hid' (mem_singleton.mp hmem)).1.symm.trans hgone
      rw [hkept, hd] at hgone'
      cases hgone'
  · rw [hstatic] at hne
    exact absurd rfl hne

/-- A compaction of the chunk with the one elected for it loses no column. -/
def JoinsColumns (env : Env) (st : ChunkStore) (c : Chunk) : Prop :=
  st.Accepts c → c.isStatic = false → (st.piecesOf env c).1.length ≤ 1 →
    ∀ elected, findAndElectCompactionCandidate env (st.prepared c) c = some elected → elected.JoinsColumns env c

theorem insertChunk_covers {env : Env} (h : st.WellFiled) (hwf : c.WellFormed) (hfresh : Fresh env st c)
    (hacc : st.Accepts c) :
    ∃ diffs, (insertChunk env st c).2 = .ok diffs ∧
      Covers (JoinsColumns env st c) st diffs (insertChunk env st c).1 := by
  have hv := h.filed.sound
  obtain ⟨hc, habsent, -⟩ := sound_of_earlyReturn hwf hacc.2
  have hclean := cleanUp_spec hv habsent
  have hprepared : Covers (JoinsColumns env st c) st ((st.cleanUp c).2.map ChunkStoreDiff.deletion) (st.prepared c) := by
    have hsame : Covers (JoinsColumns env st c) (st.cleanUp c).1 [] (st.prepared c) := .of_eq rfl rfl
    have htrans := (cleanUp_covers hv habsent).trans h hsame
    rw [append_nil] at htrans
    exact htrans
  have hv' : (st.prepared c).catalog.Sound := hv.removes hclean.removes
  have habsent' := prepared_absent hv habsent
  obtain ⟨result, diffs, hreported, heq⟩ := insertChunk_reported hv hwf hfresh hacc
  rw [heq]
  refine ⟨_, rfl, hprepared.trans h ?_⟩
  cases hreported with
  | pieces hstatic hsplit hnew =>
    refine covers_of_addsAll (foldl_storePiece_addsAll c _ _ ((st.prepared c).recordSplit c _))
      (foldl_storePiece_static c _ _ ((st.prepared c).recordSplit c _)) hnew fun p hp => ?_
    refine accountsFor_of_mem (mem_map_of_mem hp) rfl fun hs => ?_
    rw [(hsplit.pieces p hp).temporal hstatic] at hs
    cases hs
  | static hstatic => exact insertStatic_covers hv' hc.toSound hstatic habsent'
  | temporal hstatic =>
    have hadds : AddsAll [c] (st.prepared c).catalog (((st.prepared c).indexChunk c).storePhysical c).catalog :=
      ⟨_, indexChunk_storePhysical_adds (st.prepared c) c, rfl⟩
    refine covers_of_addsAll hadds rfl (fun d hd => ?_) fun d hd => ?_
    · rw [mem_singleton.mp hd]
      exact habsent'
    · rw [mem_singleton.mp hd]
      exact accountsFor_addition mem_cons_self
  | merged hstatic helectedStatic helected hnew hwhole helect hmerge hcells =>
    exact (recordCompaction_covers hv' helected hnew hmerge helectedStatic hcells).imp
      fun hjoins => hjoins hacc hstatic hwhole _ helect

/-! ## Calls -/

theorem insertChunk_result_covers {env : Env} (h : st.WellFiled) (hwf : c.WellFormed)
    (hfresh : Fresh env st c) :
    Covers (JoinsColumns env st c) st (Call.eventsOf (insertChunk env st c).2) (insertChunk env st c).1 ∧
      (c.isSorted = true → ∃ diffs, (insertChunk env st c).2 = .ok diffs) := by
  by_cases hacc : st.Accepts c
  · obtain ⟨diffs, hok, hcovers⟩ := insertChunk_covers h hwf hfresh hacc
    rw [hok]
    exact ⟨hcovers, fun _ => ⟨diffs, rfl⟩⟩
  · rw [insertChunk_of_not_accepts hacc]
    refine ⟨.of_eq rfl rfl, fun hsorted => ?_⟩
    rcases @insertChunk_result_of_not_accepts _ _ env hacc with hok | ⟨hunsorted, -⟩
    · exact ⟨[], hok⟩
    · rw [hsorted] at hunsorted
      cases hunsorted

theorem removeEach_covers (deepRemoval : Bool) (reason : ChunkDeletionReason) :
    ∀ {chunks : List Chunk} {st : ChunkStore}, st.WellFiled → (∀ c ∈ chunks, st.physical c.id = some c) →
      (chunks.map (·.id)).Nodup →
        Covers keeps st ((removeEach deepRemoval reason st chunks).2.map ChunkStoreDiff.deletion)
          (removeEach deepRemoval reason st chunks).1
  | [], _, _, _, _ => .of_eq rfl rfl
  | c :: chunks, st, h, hchunks, hnodup => by
    obtain ⟨removed, hremoved, hremoves, hrecedes, hrest, heq⟩ :=
      removeEach_cons deepRemoval reason h.filed.sound hchunks hnodup
    have hcovers : Covers keeps st (removed.2.map ChunkStoreDiff.deletion) removed.1 := by
      rcases hremoved with rfl | rfl
      · refine removeChunksDeep_covers h.filed.sound (fun d hd => ?_) reason
        rw [mem_singleton.mp hd]
        exact hchunks c mem_cons_self
      · exact removeChunksShallow_covers h.filed.sound [c] none reason
    rw [heq, map_append]
    exact hcovers.trans h (removeEach_covers deepRemoval reason (h.removes hremoves.removes hrecedes.static) hrest
      (nodup_cons.mp hnodup).2)

/-! ## New chunks -/

variable {st st' st'' : ChunkStore} {cs : List Chunk}

/-- Every chunk that comes in is the one that an addition reports. -/
def ReportsNew (st : ChunkStore) (diffs : List ChunkStoreDiff) (st' : ChunkStore) : Prop :=
  ∀ id c, st'.physical id = some c → st.physical id ≠ some c →
    ∃ before lineage, .addition before c lineage ∈ diffs ∧ before.isStatic = c.isStatic

theorem reportsNew_of_physical (h : ∀ id c, st'.physical id = some c → st.physical id = some c) :
    ReportsNew st diffs st' :=
  fun _ _ hc hne => absurd (h _ _ hc) hne

theorem reportsNew_of_removes (h : Removes st.catalog st'.catalog) : ReportsNew st diffs st' :=
  reportsNew_of_physical fun _ _ hc => (h.isSome_of (isSome_of_eq_some hc)).symm.trans hc

theorem ReportsNew.trans (h₁ : ReportsNew st diffs st') (h₂ : ReportsNew st' more st'') :
    ReportsNew st (diffs ++ more) st'' := by
  intro id c hc hne
  by_cases hmid : st'.physical id = some c
  · obtain ⟨before, lineage, hdiff, hstatic⟩ := h₁ id c hmid hne
    exact ⟨before, lineage, mem_append_left more hdiff, hstatic⟩
  · obtain ⟨before, lineage, hdiff, hstatic⟩ := h₂ id c hc hmid
    exact ⟨before, lineage, mem_append_right diffs hdiff, hstatic⟩

theorem reportsNew_of_refined {v : Catalog} (hremoves : Removes st.catalog v)
    (hadds : AddsAll cs v st'.catalog)
    (hcame : ∀ c ∈ cs, ∃ before lineage, .addition before c lineage ∈ diffs ∧ before.isStatic = c.isStatic) :
    ReportsNew st diffs st' := by
  intro id c hc hne
  rcases hadds.chunks_of hc with ⟨hmem, -⟩ | hold
  · exact hcame c hmem
  · exact absurd ((hremoves.isSome_of (isSome_of_eq_some hold)).symm.trans hold) hne

theorem insertChunk_reportsNew {env : Env} (hv : st.catalog.Sound) (hwf : c.WellFormed)
    (hfresh : Fresh env st c) :
    ReportsNew st (Call.eventsOf (insertChunk env st c).2) (insertChunk env st c).1 := by
  by_cases hacc : st.Accepts c
  · obtain ⟨hc, habsent, -⟩ := sound_of_earlyReturn hwf hacc.2
    have hclean := cleanUp_spec hv habsent
    have hv' : (st.prepared c).catalog.Sound := hv.removes hclean.removes
    have habsent' := prepared_absent hv habsent
    have hprepared : ReportsNew st ((st.cleanUp c).2.map ChunkStoreDiff.deletion) (st.prepared c) :=
      reportsNew_of_removes hclean.removes
    obtain ⟨result, diffs, hreported, heq⟩ := insertChunk_reported hv hwf hfresh hacc
    rw [heq]
    refine hprepared.trans ?_
    cases hreported with
    | pieces hstatic hsplit hnew =>
      refine reportsNew_of_refined (.refl _)
        (foldl_storePiece_addsAll c _ _ ((st.prepared c).recordSplit c _)) fun p hp => ?_
      exact ⟨c, _, mem_map_of_mem hp, hstatic.trans ((hsplit.pieces p hp).temporal hstatic).symm⟩
    | static hstatic =>
      have hadds : AddsAll [c] ((st.prepared c).insertStatic c .volatile).1.catalog
          (((st.prepared c).insertStatic c .volatile).1.storePhysical c).catalog :=
        ⟨_, keep_adds hstatic _, storePhysical_catalog _ c⟩
      obtain ⟨cs, -, hdiffs⟩ := insertStatic_evicts (st.prepared c) c .volatile
      refine reportsNew_of_refined (insertStatic_overwrites habsent' .volatile).removes hadds fun d hd => ?_
      rw [mem_singleton.mp hd, hdiffs]
      exact ⟨c, .volatile, mem_cons_self, rfl⟩
    | temporal hstatic =>
      have hadds : AddsAll [c] (st.prepared c).catalog (((st.prepared c).indexChunk c).storePhysical c).catalog :=
        ⟨_, indexChunk_storePhysical_adds (st.prepared c) c, rfl⟩
      refine reportsNew_of_refined (.refl _) hadds fun d hd => ?_
      rw [mem_singleton.mp hd]
      exact ⟨c, .volatile, mem_cons_self, rfl⟩
    | @merged elected m hstatic helectedStatic helected hnew _ _ hmerge _ =>
      have hne : m.id ≠ elected.id := by
        intro heq
        rw [heq, helected] at hnew
        cases hnew
      obtain ⟨y, hremoves, -, -, -, hadds⟩ := recordCompaction_adds (c := c) hv' helected hne
      have hall : AddsAll [m] y
          ((((st.prepared c).indexChunk m).recordCompaction c elected m).storePhysical m).catalog :=
        ⟨_, hadds, rfl⟩
      refine reportsNew_of_refined hremoves hall fun d hd => ?_
      rw [mem_singleton.mp hd]
      exact ⟨c, _, mem_cons_self, hstatic.trans (hmerge.temporal helectedStatic).symm⟩
  · rw [insertChunk_of_not_accepts hacc]
    exact reportsNew_of_physical fun _ _ hc => hc

/-- What comes back is compacted without losing a column. -/
def SlicesJoin (env : Env) (insertEnv : Nat → Env) : Nat → Nat → ChunkStore → List Chunk → Prop
  | _, _, _, [] => True
  | n, k, st, c :: chunks =>
    JoinsColumns (insertEnv n) st (c.sortByRowIdsIfNeeded env k).1 ∧
      SlicesJoin env insertEnv (n + 1) (c.sortByRowIdsIfNeeded env k).2
        (insertChunk (insertEnv n) st (c.sortByRowIdsIfNeeded env k).1).1 chunks

theorem insertSlices_covers {env : Env} {insertEnv : Nat → Env} : ∀ {chunks : List Chunk} {n k : Nat}
    {st : ChunkStore}, st.WellFiled → (∀ c ∈ chunks, c.WellFormed) → SlicesNew env insertEnv n k st chunks →
      ∃ diffs, (insertSlices env insertEnv n k st chunks).2 = .ok diffs ∧
        Covers (SlicesJoin env insertEnv n k st chunks) st diffs (insertSlices env insertEnv n k st chunks).1 ∧
        ReportsNew st diffs (insertSlices env insertEnv n k st chunks).1
  | [], _, _, _, _, _, _ => ⟨[], rfl, .of_eq rfl rfl, reportsNew_of_physical fun _ _ hc => hc⟩
  | c :: chunks, n, k, st, h, hwf, hslices => by
    have hone : SlicesNew env insertEnv n k st [c] := ⟨hslices.1, hslices.2.1, trivial⟩
    obtain ⟨-, hfresh, hrest⟩ := hslices
    obtain ⟨hsortedWf, hsorted⟩ := @Chunk.sortByRowIdsIfNeeded_wf c env k (hwf c mem_cons_self)
    obtain ⟨hcovers, hok⟩ := insertChunk_result_covers h hsortedWf hfresh
    have hreports := insertChunk_reportsNew h.filed.sound hsortedWf hfresh
    obtain ⟨diffs, hok⟩ := hok hsorted
    rw [hok] at hcovers hreports
    obtain ⟨more, hok', hcovers', hreports'⟩ := @insertSlices_covers env insertEnv chunks (n + 1)
      (c.sortByRowIdsIfNeeded env k).2 _ (insertSlice_wellFiled h hsortedWf hone)
      (fun d hd => hwf d (mem_cons_of_mem _ hd)) hrest
    rw [insertSlices_cons hok]
    refine ⟨diffs ++ more, ?_, (hcovers.imp And.left).trans h (hcovers'.imp And.right), hreports.trans hreports'⟩
    dsimp only
    rw [hok']
    rfl

theorem removeEach_physical_of (deepRemoval : Bool) (reason : ChunkDeletionReason) {id : ChunkId} :
    ∀ {chunks : List Chunk} {st : ChunkStore}, st.WellFiled →
      (removeEach deepRemoval reason st chunks).1.physical id = some c → st.physical id = some c
  | [], _, _, hc => hc
  | d :: chunks, st, h, hc => by
    obtain ⟨hremoves, hfiled⟩ := removal_spec deepRemoval reason d h
    unfold removeEach at hc
    have hmid := removeEach_physical_of deepRemoval reason hfiled hc
    exact (hremoves.isSome_of (isSome_of_eq_some hmid)).symm.trans hmid

end ChunkStore

open ChunkStore in
/-- The compactions that a call leads to lose no column: arrow joins those that both chunks have. -/
def Call.JoinsColumns (st : ChunkStore) : Call → Prop
  | insertChunk env c => ChunkStore.JoinsColumns env st c.toChunk
  | dropTimeRange env insertEnv timeline dropRange deepRemoval reason =>
    SlicesJoin env insertEnv 0 (dropPlan env st timeline dropRange).2.2
      (removeEach deepRemoval reason st (dropPlan env st timeline dropRange).1).1
      (dropPlan env st timeline dropRange).2.1
  | _ => True

open ChunkStore in
theorem Call.run_covers {st : ChunkStore} {call : Call} (h : st.WellFiled) (hpossible : call.Possible st) :
    Covers (call.JoinsColumns st) st (call.run st).2 (call.run st).1 := by
  have hv := h.filed.sound
  cases call with
  | insertDlrManifest manifest => exact insertDlrManifest_covers st manifest
  | insertChunk env c => exact (insertChunk_result_covers h c.wf hpossible).1
  | gc options clock => exact gc_covers hv options clock
  | dropEntityPath e => exact dropEntityPath_covers h e
  | dropTimeRange env insertEnv timeline dropRange deepRemoval reason =>
    obtain ⟨hphysical, hnodup, hwf⟩ := dropPlan_spec hv env timeline dropRange
    show Covers _ st (eventsOf (ChunkStore.dropTimeRange env insertEnv st timeline dropRange deepRemoval
      reason).2) (ChunkStore.dropTimeRange env insertEnv st timeline dropRange deepRemoval reason).1
    unfold ChunkStore.dropTimeRange
    split
    · exact .of_eq rfl rfl
    · obtain ⟨diffs, hok, hcovers, -⟩ := insertSlices_covers (removeEach_wellFiled deepRemoval reason h) hwf hpossible
      dsimp only
      rw [hok]
      exact (removeEach_covers deepRemoval reason h hphysical hnodup).trans h hcovers

open ChunkStore in
theorem Call.run_reportsNew {st : ChunkStore} {call : Call} (h : st.WellFiled) (hpossible : call.Possible st) :
    ReportsNew st (call.run st).2 (call.run st).1 := by
  have hv := h.filed.sound
  cases call with
  | insertDlrManifest manifest =>
    apply reportsNew_of_physical
    intro id c hc
    have hsame := (insertDlrManifest_announces st manifest).chunks
    exact (congrFun hsame id).symm.trans hc
  | insertChunk env c => exact insertChunk_reportsNew hv c.wf hpossible
  | gc options clock => exact reportsNew_of_removes (gc_removes hv options clock).1
  | dropEntityPath e =>
    apply reportsNew_of_physical
    intro id c hc
    exact ((dropEntityPath_drops st e).physical_of hc).1
  | dropTimeRange env insertEnv timeline dropRange deepRemoval reason =>
    obtain ⟨-, -, hwf⟩ := dropPlan_spec hv env timeline dropRange
    show ReportsNew st (eventsOf (ChunkStore.dropTimeRange env insertEnv st timeline dropRange deepRemoval
      reason).2) (ChunkStore.dropTimeRange env insertEnv st timeline dropRange deepRemoval reason).1
    unfold ChunkStore.dropTimeRange
    split
    · exact reportsNew_of_physical fun _ _ hc => hc
    · have hfiled := @removeEach_wellFiled deepRemoval reason (st.dropPlan env timeline dropRange).1 st h
      obtain ⟨diffs, hok, -, hreports⟩ := insertSlices_covers hfiled hwf hpossible
      dsimp only
      rw [hok]
      exact ReportsNew.trans (reportsNew_of_physical fun _ _ hc => removeEach_physical_of deepRemoval reason h hc)
        hreports

end Dalaran
