import Dalaran.Query.Answer

/-
  Stores whose chunks are filed where queries look for them.

  A physical chunk is listed where its components start, and what a component of
  an entity points at has a column of it. A manifest that says otherwise of a
  chunk breaks this: when it names a physical chunk, or when the chunk it named
  is inserted under its own id. `Call.AgreesWithChunks` excludes the two, and
  `Call.run_wellFiled` says that nothing else is needed.
-/

namespace Dalaran

open List Option Assoc

structure Chunk.ServesStatic (e : EntityPath) (component : ComponentIdentifier) (c : Chunk) : Prop where
  static : c.isStatic = true
  entityPath : c.entityPath = e
  column : (c.components.lookup component).isSome

/-- A chunk finds its components listed under its id at no starts but their own. -/
def Catalog.StartsOwn (v : Catalog) (id : ChunkId) (c : Chunk) : Prop :=
  ∀ e timeline component t, v.listed id (.component e timeline component .start t) →
    c.OwnSlot (.component e timeline component .start t)

/-- Chunks are filed, and static data is served by what is pointed at. -/
structure ChunkStore.WellFiled (st : ChunkStore) : Prop where
  filed : st.catalog.Filed
  served : ∀ e component id c, st.staticChunkIdsPerEntity.lookup (e, component) = some id →
    st.physical id = some c → c.ServesStatic e component

/-- A manifest lists and points at the physical chunks it names as they are, and a chunk stored under
its own id finds nothing else said about it. -/
def Call.AgreesWithChunks (st : ChunkStore) : Call → Prop
  | insertDlrManifest manifest => ∀ id c, st.physical id = some c →
    (∀ e timeline component t, manifest.ListsAt id (.component e timeline component .start t) →
      c.OwnSlot (.component e timeline component .start t)) ∧
    ∀ e component, manifest.staticMap.lookup (e, component) = some id → c.ServesStatic e component
  | insertChunk env c => st.Accepts c.toChunk → st.keepsId env c.toChunk = true →
    st.catalog.StartsOwn c.id c.toChunk ∧
    ∀ e component, st.staticChunkIdsPerEntity.lookup (e, component) = some c.id → c.ServesStatic e component
  | _ => True

namespace Catalog

variable {v w : Catalog} {c : Chunk}

/-! ## Filed catalogs -/

theorem Filed.removes (hv : v.Filed) (h : Removes v w) : w.Filed := by
  have hback : ∀ {id c}, w.chunks id = some c → v.chunks id = some c := fun hc =>
    (h.isSome_of (isSome_of_eq_some hc)).symm.trans hc
  refine ⟨hv.sound.removes h, fun id c s hc hs => ?_, fun id c e tl co t hc hs => ?_, fun id c tl co r hc hr => ?_⟩
  · exact h.listed_kept id s (isSome_of_eq_some hc) (hv.lists id c s (hback hc) hs)
  · exact hv.own id c e tl co t (hback hc) (h.listed_of id _ hs)
  · rw [h.longest]
    exact hv.covered id c tl co r (hback hc) hr

theorem Filed.adds (hv : v.Filed) (h : Adds c v w) (hc : c.Sound) (hown : v.StartsOwn c.id c) : w.Filed := by
  refine ⟨hv.sound.adds h hc, fun id d s hd hs => ?_, fun id d e tl co t hd hs => ?_, fun id d tl co r hd hr => ?_⟩
  · rw [h.listed]
    rcases h.chunks_cases hd with ⟨hid, hdc⟩ | ⟨-, hd⟩
    · exact .inl ⟨hid, hdc ▸ hs⟩
    · exact .inr (hv.lists id d s hd hs)
  · rw [h.listed] at hs
    rcases h.chunks_cases hd with ⟨hid, hdc⟩ | ⟨hne, hd⟩
    · rw [hdc]
      exact hs.elim (fun hs => hs.2) fun hs => hown e tl co t (hid ▸ hs)
    · exact hv.own id d e tl co t hd (hs.resolve_left fun hs => hne hs.1)
  · rcases h.chunks_cases hd with ⟨-, hdc⟩ | ⟨-, hd⟩
    · rw [hdc] at hr ⊢
      exact h.longest_own tl co r hr
    · exact (hv.covered id d tl co r hd hr).trans (h.longest_le _)

theorem Filed.addsAll : ∀ {cs : List Chunk} {v w : Catalog}, v.Filed → AddsAll cs v w →
    (∀ c ∈ cs, c.Sound ∧ v.StartsOwn c.id c) → (cs.map (·.id)).Nodup → w.Filed
  | [], _, _, hv, h, _, _ => h ▸ hv
  | c :: cs, _, _, hv, ⟨_, hadd, hrest⟩, hcs, hnd => by
    obtain ⟨hc, hown⟩ := hcs c mem_cons_self
    rw [map_cons, nodup_cons] at hnd
    refine (hv.adds hadd hc hown).addsAll hrest (fun d hd => ?_) hnd.2
    obtain ⟨hd1, hd2⟩ := hcs d (mem_cons_of_mem _ hd)
    refine ⟨hd1, fun e tl co t hs => hd2 e tl co t (((hadd.listed d.id _).mp hs).resolve_left fun h => ?_)⟩
    exact hnd.1 (h.1 ▸ List.mem_map_of_mem hd)

end Catalog

namespace ChunkStore

open Catalog

variable {st st' : ChunkStore} {c : Chunk}

/-! ## Removals -/

theorem WellFiled.removes (h : st.WellFiled) (hremoves : Removes st.catalog st'.catalog)
    (hstatic : st'.staticChunkIdsPerEntity = st.staticChunkIdsPerEntity) : st'.WellFiled := by
  refine ⟨h.filed.removes hremoves, fun e component id c hid hc => ?_⟩
  refine h.served e component id c (hstatic ▸ hid) ?_
  exact (hremoves.isSome_of (isSome_of_eq_some hc)).symm.trans hc

theorem dropEntityPath_wellFiled (h : st.WellFiled) (e : EntityPath) : (st.dropEntityPath e).1.WellFiled := by
  have hdrops := dropEntityPath_drops st e
  have hback : ∀ {id c}, (st.dropEntityPath e).1.catalog.chunks id = some c →
      st.physical id = some c ∧ ¬ (id ∈ st.staticChunkIds e ∨ id ∈ st.temporalChunkIds e) := hdrops.physical_of
  -- the temporal chunks that are left belong to other entities
  have hother : ∀ {id c}, (st.dropEntityPath e).1.catalog.chunks id = some c → c.isStatic = false →
      c.entityPath ≠ e := by
    intro id c hc hstatic heq
    exact (hback hc).2 (.inr (heq ▸ mem_temporalChunkIds_of_listed hstatic fun s =>
      h.filed.lists id c s (hback hc).1))
  refine ⟨⟨⟨fun id c hc => h.filed.sound.id_eq id c (hback hc).1, fun id c hc => h.filed.sound.chunk id c (hback hc).1⟩,
    fun id c s hc hs => ?_, fun id c e' tl co t hc hs => ?_, fun id c tl co r hc hr => ?_⟩,
    fun e' component id c hid hc => ?_⟩
  · rw [hdrops.listed]
    refine ⟨?_, h.filed.lists id c s (hback hc).1 hs⟩
    rw [hs.entity_eq]
    exact hother hc hs.isStatic
  · exact h.filed.own id c e' tl co t (hback hc).1 ((hdrops.listed id _).mp hs).2
  · have hstatic : c.isStatic = false := by
      obtain ⟨tc, htc, -⟩ := bind_eq_some_iff.mp hr
      exact Chunk.isStatic_eq_false_iff.mpr ⟨tl, by rw [htc]; rfl⟩
    rw [hdrops.longest _ (hother hc hstatic)]
    exact h.filed.covered id c tl co r (hback hc).1 hr
  · exact h.served e' component id c ((dropEntityPath_frame st e).2 _ id hid) (hback hc).1

/-! ## Manifests -/

theorem insertDlrManifest_static (st : ChunkStore) (manifest : DlrManifest)
    (key : EntityPath × ComponentIdentifier) :
    (st.insertDlrManifest manifest).1.staticChunkIdsPerEntity.lookup key =
      (manifest.staticMap.lookup key).or (st.staticChunkIdsPerEntity.lookup key) := by
  have hpoint : ∀ (es : List ((EntityPath × ComponentIdentifier) × ChunkId)) (st : ChunkStore),
      (∀ e ∈ es, manifest.staticMap.lookup e.1 = some e.2) →
      (es.foldl pointStatic st).staticChunkIdsPerEntity.lookup key =
        if key ∈ es.map (·.1) then manifest.staticMap.lookup key
        else st.staticChunkIdsPerEntity.lookup key := by
    intro es
    induction es with
    | nil => exact fun st _ => (if_neg not_mem_nil).symm
    | cons e es ih =>
      intro st hes
      have hhead : (st.pointStatic e).staticChunkIdsPerEntity.lookup key =
          if key = e.1 then some e.2 else st.staticChunkIdsPerEntity.lookup key :=
        lookup_insert_ite _ _ _ _
      rw [foldl_cons, ih _ fun e' he' => hes e' (mem_cons_of_mem _ he'), hhead]
      by_cases hmem : key ∈ es.map (·.1)
      · rw [if_pos hmem, map_cons, if_pos (mem_cons_of_mem _ hmem)]
      · rw [if_neg hmem, map_cons]
        by_cases hkey : key = e.1
        · rw [if_pos hkey, hkey, if_pos mem_cons_self]
          exact (hes e mem_cons_self).symm
        · rw [if_neg hkey, if_neg fun h => (mem_cons.mp h).elim hkey hmem]
  have hmem : key ∈ (Assoc.toList manifest.staticMap).map (·.1) ↔ (manifest.staticMap.lookup key).isSome := by
    rw [List.mem_map, isSome_iff_exists]
    constructor
    · intro ⟨e, he, heq⟩
      exact ⟨e.2, heq ▸ mem_toList.mp he⟩
    · intro ⟨id, hid⟩
      exact ⟨(key, id), mem_toList.mpr hid, rfl⟩
  unfold insertDlrManifest
  rw [(foldl_listEntry_frame _ _).2, foldl_announce_static, hpoint _ _ fun e he => mem_toList.mp he,
    foldl_announce_static]
  cases hlookup : manifest.staticMap.lookup key with
  | some id => rw [if_pos (hmem.mpr (by rw [hlookup]; rfl)), some_or]
  | none =>
    rw [if_neg fun h => ?_, none_or]
    have hsome := hmem.mp h
    rw [hlookup] at hsome
    cases hsome

theorem insertDlrManifest_wellFiled {manifest : DlrManifest} (h : st.WellFiled)
    (hcall : (Call.insertDlrManifest manifest).AgreesWithChunks st) :
    (st.insertDlrManifest manifest).1.WellFiled := by
  have hannounces := insertDlrManifest_announces st manifest
  have hback : ∀ {id c}, (st.insertDlrManifest manifest).1.catalog.chunks id = some c →
      st.physical id = some c := fun {id c} hc => (congrFun hannounces.chunks id).symm.trans hc
  refine ⟨⟨⟨fun id c hc => h.filed.sound.id_eq id c (hback hc), fun id c hc => h.filed.sound.chunk id c (hback hc)⟩,
    fun id c s hc hs => ?_, fun id c e tl co t hc hs => ?_, fun id c tl co r hc hr => ?_⟩,
    fun e component id c hid hc => ?_⟩
  · exact (hannounces.listed id s).mpr (.inr (h.filed.lists id c s (hback hc) hs))
  · rcases (hannounces.listed id _).mp hs with hs | hs
    · exact (hcall id c (hback hc)).1 e tl co t hs
    · exact h.filed.own id c e tl co t (hback hc) hs
  · exact (h.filed.covered id c tl co r (hback hc) hr).trans (hannounces.longest_le _)
  · rw [insertDlrManifest_static, or_eq_some_iff] at hid
    rcases hid with hid | ⟨-, hid⟩
    · exact (hcall id c (hback hc)).2 e component hid
    · exact h.served e component id c hid (hback hc)

/-! ## Insertions -/

theorem Stored.startsOwn {env : Env} {cs : List Chunk} {v : Catalog} (h : Stored env st c cs)
    (hfresh : Fresh env st c) (hv : Removes st.catalog v)
    (hc : st.keepsId env c = true → st.catalog.StartsOwn c.id c) : ∀ p ∈ cs, v.StartsOwn p.id p := by
  have hnew : ∀ {p : Chunk} {j : Nat}, p.id = env.newId j → v.StartsOwn p.id p := by
    intro p j hid e tl co t hs
    exact absurd (Mentions.listed (hv.listed_of p.id _ hs)) (hid ▸ (hfresh j).1)
  intro p hp
  cases h with
  | pieces _ _ hsplit =>
    obtain ⟨j, -, -, hid⟩ := hsplit.ids.mem p hp
    exact hnew hid
  | whole hkeeps =>
    rw [mem_singleton.mp hp]
    exact fun e tl co t hs => hc hkeeps e tl co t (hv.listed_of c.id _ hs)
  | merged _ _ _ _ hid _ _ =>
    obtain ⟨j, hj⟩ := hid
    exact hnew (mem_singleton.mp hp ▸ hj)

theorem Insertion.static_cases {env : Env} (hv : st.catalog.Sound) (hc : c.Sound)
    (habsent : st.physical c.id = none) (h : Insertion env st c st') (e : EntityPath)
    (component : ComponentIdentifier) :
    st'.staticChunkIdsPerEntity.lookup (e, component) = st.staticChunkIdsPerEntity.lookup (e, component) ∨
      st'.staticChunkIdsPerEntity.lookup (e, component) = some c.id ∧ c.ServesStatic e component := by
  have hclean := cleanUp_spec hv habsent
  have habsent' := prepared_absent hv habsent
  have hprepared : (st.prepared c).staticChunkIdsPerEntity = st.staticChunkIdsPerEntity := hclean.static
  have hlookup : ∀ {m : Assoc (EntityPath × ComponentIdentifier) ChunkId},
      m = (st.prepared c).staticChunkIdsPerEntity →
        m.lookup (e, component) = st.staticChunkIdsPerEntity.lookup (e, component) := fun heq => by
    rw [heq, hprepared]
  cases h with
  | pieces hstatic hsplit hlen =>
    exact .inl (hlookup (foldl_storePiece_static c _ _ ((st.prepared c).recordSplit c _)))
  | static hstatic =>
    have hover := insertStatic_overwrites habsent' .volatile
    have hmap : (((st.prepared c).insertStatic c .volatile).1.storePhysical c).staticChunkIdsPerEntity =
        (staticUpdate (st.prepared c) c).staticMap := hover.static
    rw [hmap]
    rcases staticUpdate_lookup (st.prepared c) hc e component with ⟨hnew, hpath, r, hr, -⟩ | ⟨hold, -⟩
    · refine .inr ⟨hnew, hstatic, hpath.symm, ?_⟩
      unfold Chunk.cellRowIds at hr
      cases hcol : c.components.lookup component with
      | some column => rfl
      | none =>
        rw [hcol] at hr
        cases hr
    · exact .inl (hold.trans (hlookup rfl))
  | temporal hstatic hkeeps => exact .inl (hlookup rfl)
  | @merged elected m hstatic hkeeps helected hne hconcat hroot hid' hmerge hsorted =>
    exact .inl (hlookup (removeChunksDeep_recedes (((st.prepared c).indexChunk m).recordSources c elected m)
      [elected] .compaction).static)

theorem insertChunk_wellFiled {env : Env} (h : st.WellFiled) (hwf : c.WellFormed) (hfresh : Fresh env st c)
    (hcall : st.Accepts c → st.keepsId env c = true → st.catalog.StartsOwn c.id c ∧
      ∀ e component, st.staticChunkIdsPerEntity.lookup (e, component) = some c.id →
        c.ServesStatic e component) : (insertChunk env st c).1.WellFiled := by
  by_cases hacc : st.Accepts c
  · have hv := h.filed.sound
    obtain ⟨hins, -⟩ := insertChunk_cases hv hwf hfresh hacc
    obtain ⟨hc, habsent, -⟩ := sound_of_earlyReturn hwf hacc.2
    obtain ⟨cs, v, href⟩ := hins.refines hv habsent hfresh
    obtain ⟨hsound, hnodup⟩ := href.stored.sound hc
    have hown := href.stored.startsOwn hfresh href.removes fun hkeeps => (hcall hacc hkeeps).1
    refine ⟨(h.filed.removes href.removes).addsAll href.adds (fun p hp => ⟨hsound p hp, hown p hp⟩) hnodup,
      fun e component id d hid hd => ?_⟩
    rcases hins.static_cases hv hc.toSound habsent e component with hold | ⟨hnew, hserves⟩
    · rw [hold] at hid
      rcases href.adds.chunks_of hd with ⟨hmem, hx⟩ | hkept
      · -- a pointer to something stored now is one to the chunk itself
        cases href.stored with
        | pieces _ _ hsplit =>
          obtain ⟨j, -, -, hj⟩ := hsplit.ids.mem d hmem
          exact absurd (Mentions.static hid) (hx.trans hj ▸ (hfresh j).1)
        | whole hkeeps =>
          obtain rfl := mem_singleton.mp hmem
          exact (hcall hacc hkeeps).2 e component (hx ▸ hid)
        | merged _ _ _ _ hj _ _ =>
          obtain ⟨j, hj⟩ := hj
          obtain rfl := mem_singleton.mp hmem
          exact absurd (Mentions.static hid) (hx.trans hj ▸ (hfresh j).1)
      · refine h.served e component id d hid ?_
        exact (href.removes.isSome_of (isSome_of_eq_some hkept)).symm.trans hkept
    · obtain rfl := mem_unique hid hnew
      rcases hins.physical_cases hv habsent hfresh hd with hold | ⟨hx, rfl | ⟨j, hj⟩⟩
      · rw [habsent] at hold
        cases hold
      · exact hserves
      · exact absurd (hx.trans hj).symm (hfresh j).2
  · rw [insertChunk_of_not_accepts hacc]
    exact h

/-! ## Calls -/

theorem insertSlice_wellFiled {env : Env} {insertEnv : Nat → Env} {n k : Nat} (h : st.WellFiled)
    (hwf : (c.sortByRowIdsIfNeeded env k).1.WellFormed) (hnew : SlicesNew env insertEnv n k st [c]) :
    (insertChunk (insertEnv n) st (c.sortByRowIdsIfNeeded env k).1).1.WellFiled := by
  obtain ⟨hnew, hfresh, -⟩ := hnew
  refine insertChunk_wellFiled h hwf hfresh fun _ _ => ⟨fun e tl co t hs => ?_, fun e co hid => ?_⟩
  · exact absurd (@Mentions.listed st _ (.component e tl co .start t) hs) hnew
  · exact absurd (Mentions.static hid) hnew

theorem insertSlices_wellFiled {env : Env} {insertEnv : Nat → Env} : ∀ {chunks : List Chunk} {n k : Nat}
    {st : ChunkStore}, st.WellFiled → (∀ c ∈ chunks, c.WellFormed) → SlicesNew env insertEnv n k st chunks →
      (insertSlices env insertEnv n k st chunks).1.WellFiled
  | [], _, _, _, h, _, _ => h
  | c :: chunks, n, k, st, h, hwf, ⟨hnew, hfresh, hrest⟩ => by
    obtain ⟨hsortedWf, -⟩ := @Chunk.sortByRowIdsIfNeeded_wf c env k (hwf c mem_cons_self)
    have hstep := @insertSlice_wellFiled _ _ env insertEnv n k h hsortedWf ⟨hnew, hfresh, trivial⟩
    have hih := insertSlices_wellFiled hstep (fun d hd => hwf d (mem_cons_of_mem _ hd)) hrest
    unfold insertSlices
    dsimp only
    generalize insertChunk (insertEnv n) st (c.sortByRowIdsIfNeeded env k).1 = result at hstep hih
    obtain ⟨st', outcome⟩ := result
    cases outcome with
    | error error => exact hstep
    | ok diffs => exact hih

theorem removal_spec (deepRemoval : Bool) (reason : ChunkDeletionReason) (c : Chunk) (h : st.WellFiled) :
    Removes st.catalog (if deepRemoval then st.removeChunksDeep [c] reason
        else st.removeChunksShallow [c] none reason).1.catalog ∧
      (if deepRemoval then st.removeChunksDeep [c] reason
        else st.removeChunksShallow [c] none reason).1.WellFiled := by
  split
  · have hremoves := (removeChunksDeep_removes h.filed.sound [c] reason).removes
    exact ⟨hremoves, h.removes hremoves (removeChunksDeep_recedes st [c] reason).static⟩
  · have hremoves := (removeChunksShallow_removes h.filed.sound [c] none reason).removes
    exact ⟨hremoves, h.removes hremoves (removeChunksShallow_recedes st [c] none reason).static⟩

theorem removeEach_wellFiled (deepRemoval : Bool) (reason : ChunkDeletionReason) :
    ∀ {chunks : List Chunk} {st : ChunkStore}, st.WellFiled → (removeEach deepRemoval reason st chunks).1.WellFiled
  | [], _, h => h
  | c :: chunks, st, h => by
    unfold removeEach
    exact removeEach_wellFiled deepRemoval reason (removal_spec deepRemoval reason c h).2

end ChunkStore

open ChunkStore in
theorem Call.run_wellFiled {st : ChunkStore} {call : Call} (h : st.WellFiled) (hpossible : call.Possible st)
    (hcall : call.AgreesWithChunks st) : (call.run st).1.WellFiled := by
  cases call with
  | insertDlrManifest manifest => exact insertDlrManifest_wellFiled h hcall
  | insertChunk env c => exact insertChunk_wellFiled h c.wf hpossible hcall
  | gc options clock =>
    exact h.removes (gc_removes h.filed.sound options clock).1 (gc_recedes st options clock).static
  | dropEntityPath e => exact dropEntityPath_wellFiled h e
  | dropTimeRange env insertEnv timeline dropRange deepRemoval reason =>
    show (ChunkStore.dropTimeRange env insertEnv st timeline dropRange deepRemoval reason).1.WellFiled
    unfold ChunkStore.dropTimeRange
    split
    · exact h
    · refine insertSlices_wellFiled (removeEach_wellFiled deepRemoval reason h) ?_ hpossible
      exact (dropPlan_spec h.filed.sound env timeline dropRange).2.2

end Dalaran
