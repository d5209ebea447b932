import Dalaran.Store.IndexConsistency
import Dalaran.Store.Tracking

/-
  Counting the references on a lineage entry.

  `ref_count` should be one for a physical chunk plus the number of lineage
  entries that name it as a source. Insertions, removals and collections keep it
  so. Two operations do not: a manifest replaces the entry of every id it names
  by one without references, and `drop_entity_path` takes physical chunks away
  without a word to their lineage. `reachable_countsReferences` says that these
  are the only ways to lose count.
-/

namespace Dalaran

open List ChunkStore Assoc LineageDroppingCtx

/-! ## Manifests and dropped entities -/

namespace LineageDroppingCtx

variable {ctx : LineageDroppingCtx} {held : ChunkId → Nat} {pend : ChunkId → Prop} {id : ChunkId}

theorem Tracked.announce (h : Tracked held pend ctx) (isStatic : Bool)
    (hid : ∀ l, ctx.entry id = some l → l.refCount = 0 ∧ l.lineage.referencedChunks = []) :
    Tracked held pend (ctx.setEntry id (ChunkStore.manifestEntry isStatic)) := by
  have hfree : held id + ctx.references id = 0 := by
    cases hl : ctx.entry id with
    | none =>
      obtain ⟨h1, h2, -⟩ := h.unknown hl
      omega
    | some l =>
      rw [← h.count id l hl]
      exact (hid l hl).1
  have hnosib : ∀ x l, ctx.entry x = some l → id ∉ l.lineage.siblings := by
    intro x l hl hmem
    obtain ⟨l₀, hl₀⟩ := Option.isSome_iff_exists.mp (h.siblings x l hl id hmem)
    -- an entry that refers to nothing has no siblings
    have hnil : l₀.lineage.siblings = [] := by
      have hrefs := (hid l₀ hl₀).2
      cases hlin : l₀.lineage with
      | splitFrom source siblings => simp [hlin, ChunkDirectLineage.referencedChunks] at hrefs
      | compactedFrom _ => rfl
      | rootFromManifest _ => rfl
      | volatile => rfl
    have hx := ((h.twins x l id l₀ hl hl₀ hmem).group x).mp (.inl rfl)
    rw [hnil] at hx
    rcases hx with rfl | hx
    · exact h.own x l hl hmem
    · simp at hx
  have hrefs : ∀ x, (ctx.setEntry id (manifestEntry isStatic)).references x = ctx.references x := by
    intro x
    cases hl : ctx.entry id with
    | none => exact (sum_insert_of_none _ _ hl).trans (Nat.zero_add _)
    | some l =>
      have hsum := sum_insert_of_some (manifestEntry isStatic)
        (fun _ l => l.lineage.referencedChunks.count x) hl
      rw [(hid l hl).2] at hsum
      exact hsum.trans (Nat.zero_add _)
  have hentry : ∀ {x l}, (ctx.setEntry id (manifestEntry isStatic)).entry x = some l →
      (x = id ∧ l = manifestEntry isStatic) ∨ (x ≠ id ∧ ctx.entry x = some l) := by
    intro x l hl
    rw [setEntry_entry] at hl
    split at hl
    · exact .inl ⟨‹_›, (Option.some.inj hl).symm⟩
    · exact .inr ⟨‹_›, hl⟩
  have hsome : ∀ {x}, (ctx.entry x).isSome →
      ((ctx.setEntry id (manifestEntry isStatic)).entry x).isSome := by
    intro x hx
    rw [setEntry_entry]
    split
    · rfl
    · exact hx
  refine ⟨fun x l hl => ?_, fun x hx => hsome (h.closed x (by rwa [hrefs] at hx)), fun x l hl h0 => ?_,
    fun x l y l' hl hl' hy => ?_, fun x l hl => ?_, fun x l hl s hs => ?_⟩
  · rw [hrefs]
    rcases hentry hl with ⟨rfl, rfl⟩ | ⟨-, hl₀⟩
    · exact hfree.symm
    · exact h.count x l hl₀
  · rcases hentry hl with ⟨rfl, rfl⟩ | ⟨-, hl₀⟩
    · exact .inr (.inl rfl)
    · refine (h.zero x l hl₀ h0).imp_right (Or.imp_right ?_)
      rintro ⟨s, hs, href⟩
      obtain ⟨ls, hls, hpos⟩ := isReferenced_iff.mp href
      refine ⟨s, hs, isReferenced_iff.mpr ⟨ls, ?_, hpos⟩⟩
      have hsid : s ≠ id := fun heq => hnosib x l hl₀ (heq ▸ hs)
      rw [setEntry_entry, if_neg hsid]
      exact hls
  · rcases hentry hl with ⟨rfl, rfl⟩ | ⟨-, hl₀⟩
    · simp [manifestEntry, ChunkDirectLineage.siblings] at hy
    · rcases hentry hl' with ⟨rfl, -⟩ | ⟨-, hl₁⟩
      · exact absurd hy (hnosib x l hl₀)
      · exact h.twins x l y l' hl₀ hl₁ hy
  · rcases hentry hl with ⟨rfl, rfl⟩ | ⟨-, hl₀⟩
    · simp [manifestEntry, ChunkDirectLineage.siblings]
    · exact h.own x l hl₀
  · rcases hentry hl with ⟨rfl, rfl⟩ | ⟨-, hl₀⟩
    · simp [manifestEntry, ChunkDirectLineage.siblings] at hs
    · exact hsome (h.siblings x l hl₀ s hs)

end LineageDroppingCtx

namespace ChunkStore

open LineageDroppingCtx

variable {st st' : ChunkStore} {pend : ChunkId → Prop}

theorem foldl_announce_entry (isStatic : Bool) (x : ChunkId) : ∀ (ids : List ChunkId) (st : ChunkStore),
    (ids.foldl (announce isStatic) st).entry x = if x ∈ ids then some (manifestEntry isStatic) else st.entry x
  | [], _ => by simp
  | id :: ids, st => by
    have hid : (st.announce isStatic id).entry x = if x = id then some (manifestEntry isStatic) else st.entry x :=
      setEntry_entry st.toLineageDroppingCtx id x _
    rw [foldl_cons, foldl_announce_entry isStatic x ids, hid]
    by_cases hx : x ∈ ids
    · simp [hx]
    · by_cases hxid : x = id
      · simp [hxid]
      · simp [hx, hxid]

def Unrelated (st : ChunkStore) (id : ChunkId) : Prop :=
  ∀ l, st.entry id = some l → l.refCount = 0 ∧ l.lineage.referencedChunks = []

theorem foldl_announce_tracked (isStatic : Bool) : ∀ (ids : List ChunkId) (st : ChunkStore),
    TrackedUpTo pend st → (∀ id ∈ ids, st.Unrelated id) → TrackedUpTo pend (ids.foldl (announce isStatic) st)
  | [], _, h, _ => h
  | id :: ids, st, h, hids => by
    have hid : TrackedUpTo pend (st.announce isStatic id) :=
      Tracked.announce h isStatic (hids id mem_cons_self)
    refine foldl_announce_tracked isStatic ids _ hid fun x hx l hl => ?_
    have hl' := (setEntry_entry st.toLineageDroppingCtx id x (manifestEntry isStatic)).symm.trans hl
    split at hl'
    · cases hl'
      exact ⟨rfl, rfl⟩
    · exact hids x (mem_cons_of_mem _ hx) l hl'

theorem foldl_pointStatic_frame : ∀ (es : List ((EntityPath × ComponentIdentifier) × ChunkId))
    (st : ChunkStore), (es.foldl pointStatic st).toLineageDroppingCtx = st.toLineageDroppingCtx ∧
      ∀ key id, (es.foldl pointStatic st).staticChunkIdsPerEntity.lookup key = some id →
        id ∈ es.map (·.2) ∨ st.staticChunkIdsPerEntity.lookup key = some id
  | [], _ => ⟨rfl, fun _ _ h => .inr h⟩
  | e :: es, st => by
    obtain ⟨hctx, hstatic⟩ := foldl_pointStatic_frame es (st.pointStatic e)
    refine ⟨hctx, fun key id hid => ?_⟩
    rcases hstatic key id hid with hmem | hold
    · exact .inl (mem_cons_of_mem _ hmem)
    · have hold' := (Assoc.lookup_insert_ite _ _ _ _).symm.trans hold
      split at hold'
      · exact .inl (Option.some.inj hold' ▸ mem_cons_self)
      · exact .inr hold'

theorem foldl_listEntry_frame : ∀ (es : List ((EntityPath × Timeline × ComponentIdentifier × ChunkId) ×
    DlrManifestTemporalMapEntry)) (st : ChunkStore),
    (es.foldl listEntry st).toLineageDroppingCtx = st.toLineageDroppingCtx ∧
      (es.foldl listEntry st).staticChunkIdsPerEntity = st.staticChunkIdsPerEntity
  | [], _ => ⟨rfl, rfl⟩
  | e :: es, st => foldl_listEntry_frame es (st.listEntry e)

theorem foldl_announce_static (isStatic : Bool) : ∀ (ids : List ChunkId) (st : ChunkStore),
    (ids.foldl (announce isStatic) st).staticChunkIdsPerEntity = st.staticChunkIdsPerEntity
  | [], _ => rfl
  | id :: ids, st => foldl_announce_static isStatic ids (st.announce isStatic id)

end ChunkStore

def DlrManifest.Names (manifest : DlrManifest) (id : ChunkId) : Prop :=
  id ∈ Assoc.values manifest.staticMap ∨ id ∈ (Assoc.toList manifest.temporalMap).map fun e => e.1.2.2.2

instance (manifest : DlrManifest) (id : ChunkId) : Decidable (manifest.Names id) :=
  inferInstanceAs (Decidable (_ ∨ _))

namespace ChunkStore

open LineageDroppingCtx

variable {st st' : ChunkStore}

theorem insertDlrManifest_entry (st : ChunkStore) (manifest : DlrManifest) (x : ChunkId) :
    (st.insertDlrManifest manifest).1.entry x =
      if x ∈ (Assoc.toList manifest.temporalMap).map fun e => e.1.2.2.2 then some (manifestEntry false)
      else if x ∈ Assoc.values manifest.staticMap then some (manifestEntry true) else st.entry x := by
  let st₁ := (values manifest.staticMap).foldl (announce true) st
  let st₂ := (toList manifest.staticMap).foldl pointStatic st₁
  let st₃ := ((toList manifest.temporalMap).map fun e => e.1.2.2.2).foldl (announce false) st₂
  have hctx₂ : st₂.entry = st₁.entry :=
    congrArg entry (foldl_pointStatic_frame (toList manifest.staticMap) st₁).1
  have hctx₄ : (st.insertDlrManifest manifest).1.entry = st₃.entry :=
    congrArg entry (foldl_listEntry_frame (toList manifest.temporalMap) st₃).1
  calc (st.insertDlrManifest manifest).1.entry x
      = st₃.entry x := congrFun hctx₄ x
    _ = if x ∈ (toList manifest.temporalMap).map fun e => e.1.2.2.2
          then some (manifestEntry false) else st₁.entry x := by
        rw [← hctx₂]
        exact foldl_announce_entry false x _ st₂
    _ = _ := by rw [show st₁.entry x = _ from foldl_announce_entry true x _ st]

theorem insertDlrManifest_counted {manifest : DlrManifest} (h : st.Counted)
    (hnames : ∀ id, manifest.Names id → st.Unrelated id) : (st.insertDlrManifest manifest).1.Counted := by
  -- the states the function passes through
  let st₁ := (values manifest.staticMap).foldl (announce true) st
  let st₂ := (toList manifest.staticMap).foldl pointStatic st₁
  let temporalIds := (toList manifest.temporalMap).map fun e => e.1.2.2.2
  let st₃ := temporalIds.foldl (announce false) st₂
  have hst₄ : (st.insertDlrManifest manifest).1 = (toList manifest.temporalMap).foldl listEntry st₃ := rfl
  obtain ⟨hctx₂, hstatic₂⟩ := foldl_pointStatic_frame (toList manifest.staticMap) st₁
  obtain ⟨hctx₄, hstatic₄⟩ := foldl_listEntry_frame (toList manifest.temporalMap) st₃
  have hentry₁ : ∀ x, st₁.entry x = if x ∈ values manifest.staticMap then
      some (manifestEntry true) else st.entry x := fun x => foldl_announce_entry true x _ st
  have hentry₂ : ∀ x, st₂.entry x = st₁.entry x := fun x => by rw [hctx₂]
  have hphys : ∀ x, (st.insertDlrManifest manifest).1.physical x = st.physical x :=
    fun x => congrFun (insertDlrManifest_announces st manifest).chunks x
  have hphys₂ : ∀ x, st₂.physical x = st₁.physical x :=
    fun x => congrFun (congrArg Catalog.chunks (foldl_pointStatic_catalog _ st₁)) x
  have hphys₃ : ∀ x, st₃.physical x = (st.insertDlrManifest manifest).1.physical x :=
    fun x => (congrFun (foldl_listEntry_announces (toList manifest.temporalMap) st₃).chunks x).symm
  refine ⟨?_, fun key id l hkey hl => ?_⟩
  · have htracked₁ : TrackedUpTo (fun _ => False) st₁ :=
      foldl_announce_tracked true _ st h.tracked fun id hid => hnames id (.inl hid)
    have htracked₂ : TrackedUpTo (fun _ => False) st₂ := by
      unfold TrackedUpTo
      rw [hctx₂, held_congr hphys₂]
      exact htracked₁
    have htracked₃ : TrackedUpTo (fun _ => False) st₃ := by
      refine foldl_announce_tracked false temporalIds st₂ htracked₂ fun id hid l hl => ?_
      rw [hentry₂, hentry₁] at hl
      split at hl
      · cases hl
        exact ⟨rfl, rfl⟩
      · exact hnames id (.inr hid) l hl
    unfold TrackedUpTo
    rw [hst₄, hctx₄, ← hst₄, ← held_congr hphys₃]
    exact htracked₃
  · -- an announced id is a root, any other one is as before
    rw [insertDlrManifest_entry] at hl
    split at hl
    · cases hl
      exact ⟨rfl, rfl⟩
    · split at hl
      · cases hl
        exact ⟨rfl, rfl⟩
      · rename_i hmem
        rw [hst₄, hstatic₄, foldl_announce_static] at hkey
        rcases hstatic₂ key id hkey with hid | hold
        · refine absurd ?_ hmem
          unfold toList at hid
          rwa [map_map] at hid
        · rw [foldl_announce_static] at hold
          exact h.roots key id l hold hl

theorem dropEntityPath_maps (st : ChunkStore) (e : EntityPath) :
    (st.dropEntityPath e).1.toLineageDroppingCtx = st.toLineageDroppingCtx ∧
      (st.dropEntityPath e).1.staticChunkIdsPerEntity = retainKeys st.staticChunkIdsPerEntity fun k => k.1 ≠ e := by
  obtain ⟨_, _, _, _, h⟩ := dropEntityPath_eq st e
  rw [h]
  exact ⟨rfl, rfl⟩

theorem dropEntityPath_frame (st : ChunkStore) (e : EntityPath) :
    (st.dropEntityPath e).1.toLineageDroppingCtx = st.toLineageDroppingCtx ∧
      ∀ key id, (st.dropEntityPath e).1.staticChunkIdsPerEntity.lookup key = some id →
        st.staticChunkIdsPerEntity.lookup key = some id := by
  obtain ⟨hctx, hstatic⟩ := dropEntityPath_maps st e
  refine ⟨hctx, fun key id hid => ?_⟩
  rw [hstatic, lookup_retainKeys] at hid
  split at hid
  · exact hid
  · cases hid

theorem dropEntityPath_counted {e : EntityPath} (h : st.Counted)
    (hdropped : ∀ id, id ∈ st.staticChunkIds e ∨ id ∈ st.temporalChunkIds e → st.physical id = none) :
    (st.dropEntityPath e).1.Counted := by
  obtain ⟨hctx, hstatic⟩ := dropEntityPath_frame st e
  have hphys : ∀ x, (st.dropEntityPath e).1.physical x = st.physical x := by
    intro x
    have hdrops := (dropEntityPath_drops st e).chunks x
    refine hdrops.trans ?_
    split
    · rename_i hx
      exact (hdropped x hx).symm
    · rfl
  refine ⟨?_, fun key id l hkey hl => h.roots key id l (hstatic key id hkey) (hctx ▸ hl)⟩
  unfold TrackedUpTo
  rw [hctx, held_congr hphys]
  exact h.tracked

end ChunkStore

/-! ## Runs -/

/-- An operation keeps count: a manifest names no id with references to or from its entry, and no
physical chunk is dropped with its entity. -/
def Op.KeepsCount (st : ChunkStore) : Op → Prop
  | insertDlrManifest manifest => ∀ id, manifest.Names id → st.Unrelated id
  | dropEntityPath e => ∀ id, id ∈ st.staticChunkIds e ∨ id ∈ st.temporalChunkIds e → st.physical id = none
  | _ => True

theorem Op.run_counted {st : ChunkStore} {op : Op} (hv : st.catalog.Sound) (h : st.Counted)
    (hop : op.Possible st) (hkeeps : op.KeepsCount st) : (op.run st).Counted := by
  cases op with
  | insertDlrManifest manifest => exact insertDlrManifest_counted h hkeeps
  | insertChunk env c => exact insertChunk_counted hv h hop
  | gc options clock =>
    show (st.gc options clock).1.Counted
    rw [gc_eq]
    have h₁ := gcPlan_removes hv options clock
    refine h.recedes (gc_eq st options clock ▸ gc_recedes st options clock) ?_
    exact removeChunksDeep_tracked (hv.removes h₁.removes)
      (removeChunksShallow_tracked hv h.tracked _ _ _) _ _
  | removeChunksShallow chunks budget reason =>
    exact h.recedes (removeChunksShallow_recedes ..)
      (removeChunksShallow_tracked hv h.tracked _ _ _)
  | removeChunksDeep chunks reason =>
    exact h.recedes (removeChunksDeep_recedes ..)
      (removeChunksDeep_tracked hv h.tracked _ _)
  | dropEntityPath e => exact dropEntityPath_counted h hkeeps

namespace ChunkStore

open LineageDroppingCtx

variable {st : ChunkStore}

theorem new_counted (config : ChunkSplitConfig) : (ChunkStore.new config).Counted := by
  have hentry : ∀ {x l}, (ChunkStore.new config).entry x ≠ some l := by
    intro x l h
    simp [entry, ChunkStore.new] at h
  refine ⟨⟨fun _ _ h => absurd h hentry, fun x hx => ?_, fun _ _ h => absurd h hentry,
    fun _ _ _ _ h => absurd h hentry, fun _ _ h => absurd h hentry, fun _ _ h => absurd h hentry⟩,
    fun _ _ _ _ h => absurd h hentry⟩
  have : (ChunkStore.new config).held x + (ChunkStore.new config).references x = 0 := rfl
  omega

/-- The references on every entry are counted: by its physical chunk and by the entries that name it
as a source. What is referred to has an entry, and an entry that nothing refers to is gone, unless it
descends from a manifest or a sibling of its split is referred to. -/
structure CountsReferences (st : ChunkStore) : Prop where
  count : ∀ x l, st.entry x = some l → l.refCount = st.held x + st.references x
  kept : ∀ x, st.IsPhysical x ∨ 0 < st.references x → (st.entry x).isSome
  dropped : ∀ x l, st.entry x = some l → st.held x + st.references x = 0 →
    l.descendsFromManifest = true ∨ ∃ s ∈ l.lineage.siblings, 0 < st.held s + st.references s

theorem Reachable.counted (h : Reachable (fun st op => op.KeepsCount st) st) : st.Counted := by
  induction h with
  | new config => exact new_counted config
  | step hst hop hkeeps ih => exact Op.run_counted hst.sound ih hop hkeeps

/-- In every run whose operations keep count, the references are counted. -/
theorem reachable_countsReferences (h : Reachable (fun st op => op.KeepsCount st) st) : st.CountsReferences := by
  have htracked := h.counted.tracked
  refine ⟨htracked.count, fun x hx => htracked.closed x ?_, fun x l hl h0 => ?_⟩
  · rcases hx with hx | hx
    · rw [held_eq_one hx]
      omega
    · omega
  · refine ((htracked.zero x l hl (by rw [htracked.count x l hl, h0])).resolve_left id).imp_right ?_
    rintro ⟨s, hs, href⟩
    obtain ⟨ls, hls, hpos⟩ := isReferenced_iff.mp href
    exact ⟨s, hs, by rw [← htracked.count s ls hls]; exact hpos⟩

/-- A chunk that a manifest announced and that was loaded is counted once. -/
theorem loadedStore_countsReferences : loadedStore.CountsReferences := by
  refine reachable_countsReferences (.step (.step (.new _) trivial ?_)
    fresh_countingFrom trivial)
  intro id _ l hl
  simp [entry, ChunkStore.new] at hl

def reannouncedStore : ChunkStore := (Op.insertDlrManifest interleavedManifest).run
  ((Op.insertChunk (.countingFrom 100) interleavedChunk).run (.new ⟨0, 0, 0⟩))

/-- The manifest takes the reference of the physical chunk off its entry. -/
theorem reannouncedStore_not_countsReferences :
    Reachable (fun _ _ => True) reannouncedStore ∧ ¬ reannouncedStore.CountsReferences := by
  refine ⟨.step (.step (.new _) fresh_countingFrom trivial) trivial trivial, fun h => ?_⟩
  have hcount := h.count 1 (manifestEntry false) (by rfl)
  have hheld : reannouncedStore.held 1 = 1 := by rfl
  have : (manifestEntry false).refCount = 0 := rfl
  omega

end ChunkStore

end Dalaran
