import Dalaran.Store.DroppingEntities
import Dalaran.Store.Grown

/-
  Rows through ingestion.

  However chunks are split, compacted and inserted again, the rows of the physical
  chunks are the rows of the chunks that were inserted, each of them once
  (`ingest_keeps_rows`). The invariant follows every inserted chunk (`Located`): it
  is physical, or it went into a merge that has an entry, or all pieces it was cut
  into are physical. In the third case the clean-up of a further insertion takes
  away its pieces, and with them exactly its rows (`prepared_conserves`).

  A chunk without component columns is dropped, which is what `insert_chunk` says it
  does with them, and `Op.KeepsCells` excludes compactions that lose a column or
  move cells.

  Correspondence (Rust ↔ Lean):
    calls of `insert_chunk` on a new store ↔ `Ingest`
    `chunk.components().is_empty()` ↔ `Chunk.hasColumns`
-/

namespace Dalaran

open List Option Assoc

/-- Chunks without component columns are dropped. -/
def Chunk.hasColumns (c : Chunk) : Bool := !c.components.entries.isEmpty

namespace ChunkStore

open LineageDroppingCtx

variable {st st' : ChunkStore} {c d : Chunk} {cs ps : List Chunk} {env : Env}

/-! ## Rows that come and go -/

def physicalRows (st : ChunkStore) : List Row := st.physicalChunks.flatMap Chunk.rows

theorem Evicts.rows (h : Evicts st cs st') : st.physicalRows.Perm (cs.flatMap Chunk.rows ++ st'.physicalRows) := by
  unfold physicalRows
  rw [← flatMap_append]
  exact Perm.flatMap_right Chunk.rows h

theorem evicts_of_physical (hv : st.catalog.Sound) (hv' : st'.catalog.Sound) (hnodup : (ps.map (·.id)).Nodup)
    (hps : ∀ p ∈ ps, st.physical p.id = some p)
    (hphys : ∀ x, st'.physical x = if x ∈ ps.map (·.id) then none else st.physical x) : Evicts st ps st' := by
  have hold : st.physicalChunks.Nodup := (physicalChunks_ids_nodup hv).of_map
  have hnew : st'.physicalChunks.Nodup := (physicalChunks_ids_nodup hv').of_map
  have hgone : ∀ p ∈ ps, st'.physical p.id = none := fun p hp =>
    (hphys p.id).trans (if_pos (mem_map_of_mem hp))
  have hboth : (ps ++ st'.physicalChunks).Nodup := by
    refine nodup_append'.mpr ⟨hnodup.of_map, hnew, fun p hp hp' => ?_⟩
    have hsome := (mem_physicalChunks hv').mp hp'
    rw [hgone p hp] at hsome
    cases hsome
  refine (perm_ext_iff_of_nodup hold hboth).mpr fun d => ?_
  rw [mem_append, mem_physicalChunks hv, mem_physicalChunks hv']
  constructor
  · intro hd
    by_cases hmem : d.id ∈ ps.map (·.id)
    · obtain ⟨p, hp, hid⟩ := List.mem_map.mp hmem
      have hsame : st.physical d.id = some p := hid ▸ hps p hp
      exact .inl (mem_unique hd hsame ▸ hp)
    · exact .inr ((hphys d.id).trans ((if_neg hmem).trans hd))
  · intro hd
    rcases hd with hp | hd
    · exact hps d hp
    · rw [hphys d.id] at hd
      split at hd
      · cases hd
      · exact hd

theorem physicalRows_of_stored (h : st.physical c.id = none)
    (hstored : st'.physicalChunksPerChunkId = AList.insert c.id c st.physicalChunksPerChunkId) :
    st'.physicalRows.Perm (c.rows ++ st.physicalRows) := by
  have hperm : st'.physicalChunks.Perm (c :: st.physicalChunks) := by
    unfold physicalChunks
    rw [hstored]
    exact values_insert_perm c h
  exact Perm.flatMap_right Chunk.rows hperm

theorem foldl_storePiece_rows (c : Chunk) (pieces ps : List Chunk) (hps : ∀ p ∈ ps, st.physical p.id = none)
    (hnodup : (ps.map (·.id)).Nodup) :
    (ps.foldl (storePiece c pieces) st).physicalRows.Perm (ps.flatMap Chunk.rows ++ st.physicalRows) := by
  induction ps generalizing st with
  | nil => exact Perm.refl st.physicalRows
  | cons p ps ih =>
    rw [map_cons, nodup_cons] at hnodup
    have hp : (storePiece c pieces st p).physicalRows.Perm (p.rows ++ st.physicalRows) :=
      physicalRows_of_stored (hps p mem_cons_self) rfl
    have hrest : ∀ q ∈ ps, (storePiece c pieces st p).physical q.id = none := by
      intro q hq
      have hne : q.id ≠ p.id := fun heq => hnodup.1 (List.mem_map.mpr ⟨q, hq, heq⟩)
      exact (lookup_insert_ite _ _ _ _).trans ((if_neg hne).trans (hps q (mem_cons_of_mem _ hq)))
    have hlater := ih hrest hnodup.2
    rw [foldl_cons, flatMap_cons]
    generalize storePiece c pieces st p = st₁ at hp hlater ⊢
    refine hlater.trans ((hp.append_left _).trans ?_)
    rw [← append_assoc]
    exact perm_append_comm.append_right _

theorem recordCompaction_rows {elected m : Chunk} (helected : st.physical elected.id = some elected)
    (hm : st.physical m.id = none) (hrows : m.rows.Perm (elected.rows ++ c.rows)) :
    (((st.indexChunk m).recordCompaction c elected m).storePhysical m).physicalRows.Perm
      (c.rows ++ st.physicalRows) := by
  obtain ⟨hevicts, hgone⟩ := recordCompaction_evicts (c := c) helected hm
  have hbefore : st.physicalRows.Perm
      (elected.rows ++ ((st.indexChunk m).recordCompaction c elected m).physicalRows) := by
    have h := hevicts.rows
    rwa [flatMap_singleton] at h
  have hstored : (((st.indexChunk m).recordCompaction c elected m).storePhysical m).physicalRows.Perm
      (m.rows ++ ((st.indexChunk m).recordCompaction c elected m).physicalRows) :=
    physicalRows_of_stored hgone rfl
  have hswapped : m.rows.Perm (c.rows ++ elected.rows) := hrows.trans perm_append_comm
  refine hstored.trans ((hswapped.append_right _).trans ?_)
  rw [append_assoc]
  exact hbefore.symm.append_left _

/-! ## Where the rows of a chunk are -/

/-- Where the rows of an inserted chunk are: in the chunk, in a merge, or in pieces. -/
inductive Located (st : ChunkStore) (c : Chunk) : Prop
  | whole (h : st.IsPhysical c.id)
  | merged {y : ChunkId} {l : TrackedDirectChunkLineage} {sources : List ChunkId} (hl : st.entry y = some l)
      (hlin : l.lineage = .compactedFrom sources) (hc : c.id ∈ sources)
  | cut {ps : List Chunk} (hdangling : st.danglingSplits.lookup c.id = some (ps.map (·.id)))
      (hphys : ∀ p ∈ ps, st.physical p.id = some p) (hrows : ps.flatMap Chunk.rows = c.rows)

namespace Located

theorem mentions (h : st.Located c) : st.Mentions c.id := by
  cases h with
  | whole h =>
    obtain ⟨d, hd⟩ := isSome_iff_exists.mp h
    exact .physical hd
  | merged hl hlin hc => exact .referenced hl (by rw [hlin]; exact hc)
  | cut hdangling hphys hrows => exact .dangling hdangling

theorem cut_of_accepts (h : st.Located c) (htracked : TrackedUpTo (fun _ => False) st)
    (hvol : VolatileUpTo (fun _ => False) st) (hwf : c.WellFormed) (hacc : st.Accepts c) :
    ∃ ps : List Chunk, st.danglingSplits.lookup c.id = some (ps.map (·.id)) ∧
      (∀ p ∈ ps, st.physical p.id = some p) ∧ ps.flatMap Chunk.rows = c.rows := by
  obtain ⟨-, habsent, hdead⟩ := sound_of_earlyReturn hwf hacc.2
  cases h with
  | whole h =>
    unfold IsPhysical at h
    rw [habsent] at h
    cases h
  | merged hl hlin hc =>
    rw [hvol.chain_live htracked hl hlin hc] at hdead
    cases hdead
  | cut hdangling hphys hrows => exact ⟨_, hdangling, hphys, hrows⟩

theorem of_kept (h : st.Located d) (hwhole : st.IsPhysical d.id → st'.Located d)
    (hmerged : ∀ y l sources, st.entry y = some l → l.lineage = .compactedFrom sources →
      ∃ l', st'.entry y = some l' ∧ l'.lineage = .compactedFrom sources)
    (hcut : ∀ ps : List Chunk, st.danglingSplits.lookup d.id = some (ps.map (·.id)) →
      (∀ p ∈ ps, st.physical p.id = some p) →
      st'.danglingSplits.lookup d.id = some (ps.map (·.id)) ∧ ∀ p ∈ ps, st'.physical p.id = some p) :
    st'.Located d := by
  cases h with
  | whole h => exact hwhole h
  | merged hl hlin hc =>
    obtain ⟨l', hl', hlin'⟩ := hmerged _ _ _ hl hlin
    exact .merged hl' hlin' hc
  | cut hdangling hphys hrows =>
    obtain ⟨hdangling', hphys'⟩ := hcut _ hdangling hphys
    exact .cut hdangling' hphys' hrows

end Located

/-! ## Clearing the way -/

theorem cleanUp_physical (hv : st.catalog.Sound) (habsent : st.physical c.id = none) (x : ChunkId) :
    (st.cleanUp c).1.physical x = if x ∈ (st.danglingSplits.lookup c.id).getD [] then none else st.physical x := by
  have hclean := cleanUp_spec hv habsent
  have hspared : x ≠ c.id → x ∉ (st.danglingSplits.lookup c.id).getD [] →
      (st.cleanUp c).1.physical x = st.physical x := by
    intro hne hx
    refine (hclean.spares x fun hor => ?_).1
    rcases hor with heq | ⟨g, hg, hmem⟩
    · exact hne heq
    · exact hx (by rw [hg]; exact hmem)
  split
  · rename_i hx
    cases hg : st.danglingSplits.lookup c.id with
    | none =>
      rw [hg] at hx
      cases hx
    | some g =>
      rw [hg] at hx
      exact cleanUp_absent hv habsent hg hx
  · rename_i hx
    by_cases hne : x = c.id
    · rw [hne, habsent]
      exact hclean.removes.absent habsent
    · exact hspared hne hx

variable {x : ChunkId}

theorem cleanUp_keeps (hv : st.catalog.Sound) (habsent : st.physical c.id = none)
    (hvol : VolatileUpTo (fun _ => False) st)
    (hx : ∀ l siblings, st.entry x = some l → l.lineage ≠ .splitFrom c.id siblings) :
    (st.cleanUp c).1.physical x = st.physical x := by
  rw [cleanUp_physical hv habsent, if_neg]
  intro hmem
  cases hg : st.danglingSplits.lookup c.id with
  | none =>
    rw [hg] at hmem
    cases hmem
  | some g =>
    rw [hg] at hmem
    obtain ⟨l, siblings, hl, hlin, -⟩ := (hvol.dangling c.id g hg).2.2 x hmem
    exact hx l siblings hl hlin

theorem cleanUp_keeps_merges (hv : st.catalog.Sound) (habsent : st.physical c.id = none)
    (htracked : TrackedUpTo (fun _ => False) st) (hvol : VolatileUpTo (fun _ => False) st) {y : ChunkId}
    {l : TrackedDirectChunkLineage} {sources : List ChunkId} (hl : st.entry y = some l)
    (hlin : l.lineage = .compactedFrom sources) :
    ∃ l', (st.cleanUp c).1.entry y = some l' ∧ l'.lineage = .compactedFrom sources := by
  obtain ⟨rank, hrank⟩ := hvol.acyclic
  have hcleaned := cleanUp_tracked hv habsent htracked
  -- on the number of links above the merge
  generalize hn : (Walk.above st.leakyCompactions rank y).length = n
  induction n using Nat.strongRecOn generalizing y l sources with
  | _ n ih =>
    have hsome : ((st.cleanUp c).1.entry y).isSome := by
      apply hcleaned.closed
      by_cases hy : st.IsPhysical y
      · have hkept : (st.cleanUp c).1.physical y = st.physical y := by
          refine cleanUp_keeps hv habsent hvol fun l' siblings hl' hlin' => ?_
          rw [mem_unique hl' hl, hlin] at hlin'
          cases hlin'
        have hheld : (st.cleanUp c).1.held y = 1 := held_eq_one (by rw [hkept]; exact hy)
        omega
      · obtain ⟨z, lz, sources', hlz, hlinz, hmem⟩ := hvol.merged_on htracked hl hlin hy
        have hlink := hvol.compacted z lz sources' hlz hlinz y hmem
        have hfewer := Walk.length_above_lt hlink (hrank y z hlink)
        obtain ⟨lz', hlz', hlinz'⟩ := ih _ (hn ▸ hfewer) hlz hlinz rfl
        exact Nat.add_pos_right _ (references_pos_iff.mpr ⟨z, lz', hlz', by rw [hlinz']; exact hmem⟩)
    obtain ⟨l', hl'⟩ := isSome_iff_exists.mp hsome
    obtain ⟨l₀, hl₀, hlin₀, -⟩ := (cleanUp_lineage habsent).1 _ _ hl'
    obtain rfl := mem_unique hl hl₀
    exact ⟨l', hl', hlin₀.trans hlin⟩

theorem not_splitFrom_of_isRootChunk (h : st.isRootChunk x = true) {l : TrackedDirectChunkLineage}
    {source : ChunkId} {siblings : List ChunkId} (hl : st.entry x = some l) :
    l.lineage ≠ .splitFrom source siblings := by
  intro hlin
  refine (isRootChunk_iff.mp h).1 ⟨source, siblings, ?_⟩
  exact (congrArg (Option.map _) hl).trans (congrArg some hlin)

theorem Located.cleanUp (h : st.Located d) (hv : st.catalog.Sound) (htracked : TrackedUpTo (fun _ => False) st)
    (hvol : VolatileUpTo (fun _ => False) st) (hwf : c.WellFormed) (hacc : st.Accepts c) (hne : d.id ≠ c.id)
    (hroot : st.isRootChunk d.id = true) : (st.cleanUp c).1.Located d := by
  obtain ⟨-, habsent, -⟩ := sound_of_earlyReturn hwf hacc.2
  obtain ⟨hvol', -, -⟩ := cleanUp_forgets hv htracked hvol hwf hacc
  have hcleaned := cleanUp_tracked hv habsent htracked
  refine h.of_kept (fun hphys => .whole ?_) (fun y l sources hl hlin =>
    cleanUp_keeps_merges hv habsent htracked hvol hl hlin) fun ps hdangling hphys => ?_
  · have hkept : (st.cleanUp c).1.physical d.id = st.physical d.id :=
      cleanUp_keeps hv habsent hvol fun l siblings hl => not_splitFrom_of_isRootChunk hroot hl
    unfold IsPhysical
    rw [hkept]
    exact hphys
  · obtain ⟨-, hnonempty, hpieces⟩ := hvol.dangling d.id _ hdangling
    have hkept : ∀ p ∈ ps, (st.cleanUp c).1.physical p.id = some p := by
      intro p hp
      obtain ⟨l, siblings, hl, hlin, -⟩ := hpieces p.id (mem_map_of_mem hp)
      rw [← hphys p hp]
      refine cleanUp_keeps hv habsent hvol fun l' siblings' hl' hlin' => ?_
      rw [mem_unique hl' hl, hlin] at hlin'
      exact hne (ChunkDirectLineage.splitFrom.inj hlin').1
    refine ⟨?_, hkept⟩
    -- a piece that is there has an entry, which says that the split is recorded
    obtain ⟨p, hp⟩ : ∃ p, p ∈ ps := exists_mem_of_ne_nil ps fun hnil => hnonempty (by rw [hnil]; rfl)
    have hheld : (st.cleanUp c).1.held p.id = 1 := held_eq_one (by rw [hkept p hp]; rfl)
    obtain ⟨l', hl'⟩ := isSome_iff_exists.mp (hcleaned.closed p.id (by omega))
    obtain ⟨l, siblings, hl, hlin, -⟩ := hpieces p.id (mem_map_of_mem hp)
    obtain ⟨l₀, hl₀, hlin₀, -⟩ := (cleanUp_lineage habsent).1 _ _ hl'
    obtain rfl := mem_unique hl hl₀
    obtain ⟨-, -, hrecorded⟩ := hvol'.split p.id l' d.id siblings hl' (hlin₀.trans hlin)
    obtain ⟨g, hg, -⟩ := hrecorded.resolve_left id
    rw [hg, ← hdangling, (cleanUp_lineage habsent).2.2 _ _ hg]

theorem Located.ensureLineage (h : st.Located d) (hx : st.entry x = none) :
    (st.ensureLineage x .volatile).Located d := by
  refine h.of_kept (fun hphys => .whole hphys) (fun y l sources hl hlin => ?_) fun ps hdangling hphys => ⟨?_, hphys⟩
  · have hne : y ≠ x := by
      intro heq
      rw [heq, hx] at hl
      cases hl
    refine ⟨gain (ChunkDirectLineage.referencedChunks .volatile |>.count y) l, ?_, hlin⟩
    refine (insertLineageIfMissing_entry .volatile hx y).trans ?_
    rw [if_neg hne, hl]
    rfl
  · rw [← hdangling]
    exact congrArg (AList.lookup d.id) (insertLineageIfMissing_maps st.toLineageDroppingCtx x .volatile).2.2

/-! ## One insertion -/

/-- The physical chunks have the rows of some chunks, each of which is found where it went. -/
structure Conserves (cs : List Chunk) (st : ChunkStore) : Prop where
  rows : st.physicalRows.Perm (cs.flatMap Chunk.rows)
  ids : (cs.map (·.id)).Nodup
  located : ∀ d ∈ cs, st.Located d
  roots : ∀ d ∈ cs, st.isRootChunk d.id = true

theorem Conserves.perm {ds : List Chunk} (h : Conserves cs st) (hperm : cs.Perm ds) : Conserves ds st := by
  refine ⟨h.rows.trans (Perm.flatMap_right Chunk.rows hperm), (hperm.map _).nodup_iff.mp h.ids,
    fun d hd => h.located d (hperm.mem_iff.mpr hd), fun d hd => h.roots d (hperm.mem_iff.mpr hd)⟩

theorem prepared_conserves (hv : st.catalog.Sound) (htracked : TrackedUpTo (fun _ => False) st)
    (hvol : VolatileUpTo (fun _ => False) st) (hdistinct : st.PiecesDistinct) (hwf : c.WellFormed)
    (hacc : st.Accepts c) (h : Conserves cs st) (hc : c ∈ cs ∨ ¬ st.Mentions c.id) :
    ∃ rest, Conserves rest (st.prepared c) ∧ c.id ∉ rest.map (·.id) ∧ (c ∈ cs → cs.Perm (c :: rest)) ∧
      (c ∉ cs → rest = cs) := by
  obtain ⟨-, habsent, -⟩ := sound_of_earlyReturn hwf hacc.2
  obtain ⟨-, hnone, -⟩ := cleanUp_forgets hv htracked hvol hwf hacc
  have hothers : ∀ {rest : List Chunk}, (∀ d ∈ rest, d ∈ cs ∧ d.id ≠ c.id) →
      (∀ d ∈ rest, (st.prepared c).Located d) ∧ ∀ d ∈ rest, (st.prepared c).isRootChunk d.id = true := by
    intro rest hrest
    refine ⟨fun d hd => ?_, fun d hd => ?_⟩
    · obtain ⟨hmem, hne⟩ := hrest d hd
      exact ((h.located d hmem).cleanUp hv htracked hvol hwf hacc hne (h.roots d hmem)).ensureLineage hnone
    · obtain ⟨hsplit, hcompaction⟩ := isRootChunk_iff.mp (h.roots d (hrest d hd).1)
      refine isRootChunk_iff.mpr ⟨fun ⟨source, siblings, hl⟩ => ?_, fun ⟨sources, hl⟩ => ?_⟩
      · rcases prepared_directLineage habsent hl with hvolatile | hold
        · cases hvolatile
        · exact hsplit ⟨source, siblings, hold⟩
      · rcases prepared_directLineage habsent hl with hvolatile | hold
        · cases hvolatile
        · exact hcompaction ⟨sources, hold⟩
  have hclean := cleanUp_spec hv habsent
  by_cases hmem : c ∈ cs
  · obtain ⟨rest, hperm⟩ : ∃ rest, cs.Perm (c :: rest) := by
      obtain ⟨before, after, rfl⟩ := append_of_mem hmem
      exact ⟨before ++ after, perm_middle⟩
    have hids := (hperm.map (·.id)).nodup_iff.mp h.ids
    rw [map_cons, nodup_cons] at hids
    obtain ⟨hlocated, hroots⟩ := @hothers rest fun d hd =>
      ⟨hperm.mem_iff.mpr (mem_cons_of_mem c hd), fun heq => hids.1 (heq ▸ mem_map_of_mem hd)⟩
    refine ⟨rest, ⟨?_, hids.2, hlocated, hroots⟩, hids.1, fun _ => hperm, fun h => absurd hmem h⟩
    obtain ⟨ps, hdangling, hphys, hrows⟩ := (h.located c hmem).cut_of_accepts htracked hvol hwf hacc
    have hevicts : Evicts st ps (st.cleanUp c).1 := by
      refine evicts_of_physical hv (hv.removes hclean.removes) (hdistinct c.id _ hdangling) hphys fun x => ?_
      rw [cleanUp_physical hv habsent, hdangling]
      rfl
    have hsplit : (c.rows ++ (st.cleanUp c).1.physicalRows).Perm (c.rows ++ rest.flatMap Chunk.rows) := by
      rw [← hrows]
      refine hevicts.rows.symm.trans (h.rows.trans ?_)
      rw [hrows]
      exact Perm.flatMap_right Chunk.rows hperm
    exact (perm_append_left_iff c.rows).mp hsplit
  · have hunused := hc.resolve_left hmem
    have hne : ∀ d ∈ cs, d.id ≠ c.id := fun d hd heq => hunused (heq ▸ (h.located d hd).mentions)
    obtain ⟨hlocated, hroots⟩ := @hothers cs fun d hd => ⟨hd, hne d hd⟩
    refine ⟨cs, ⟨?_, h.ids, hlocated, hroots⟩, fun hid => ?_, fun h => absurd h hmem, fun _ => rfl⟩
    · have hsame : (st.cleanUp c).1 = st := by rw [cleanUp_of_available (.of_not_mentions hunused)]
      show (st.cleanUp c).1.physicalRows.Perm _
      rw [hsame]
      exact h.rows
    · obtain ⟨d, hd, heq⟩ := List.mem_map.mp hid
      exact hne d hd heq

theorem Conserves.insert (h : Conserves cs st) (hc : c.id ∉ cs.map (·.id)) (hroot : st.isRootChunk c.id = true)
    (hrows : st'.physicalRows.Perm (c.rows ++ st.physicalRows)) (hlocated : st'.Located c)
    (hothers : ∀ d ∈ cs, st.Located d → st'.Located d)
    (hentries : ∀ x, st.Mentions x ∨ x = c.id → ∀ l, st'.entry x = some l →
      ∃ l₀, st.entry x = some l₀ ∧ l.lineage = l₀.lineage) : Conserves (c :: cs) st' := by
  have hroots : ∀ {x}, st.Mentions x ∨ x = c.id → st.isRootChunk x = true → st'.isRootChunk x = true := by
    intro x hx hxroot
    obtain ⟨hsplit, hcompaction⟩ := isRootChunk_iff.mp hxroot
    have hback : ∀ lineage, st'.directLineage x = some lineage → st.directLineage x = some lineage := by
      intro lineage hl
      obtain ⟨l, hentry, rfl⟩ := map_eq_some_iff.mp hl
      obtain ⟨l₀, hl₀, heq⟩ := hentries x hx l hentry
      exact map_eq_some_iff.mpr ⟨l₀, hl₀, heq.symm⟩
    refine isRootChunk_iff.mpr ⟨fun ⟨source, siblings, hl⟩ => hsplit ⟨source, siblings, hback _ hl⟩,
      fun ⟨sources, hl⟩ => hcompaction ⟨sources, hback _ hl⟩⟩
  refine ⟨?_, ?_, fun d hd => ?_, fun d hd => ?_⟩
  · rw [flatMap_cons]
    exact hrows.trans (h.rows.append_left _)
  · rw [map_cons, nodup_cons]
    exact ⟨hc, h.ids⟩
  · rcases mem_cons.mp hd with rfl | hd
    · exact hlocated
    · exact hothers d hd (h.located d hd)
  · rcases mem_cons.mp hd with rfl | hd
    · exact hroots (.inr rfl) hroot
    · exact hroots (.inl (h.located d hd).mentions) (h.roots d hd)

theorem ReadyFor.not_piece (h : st.ReadyFor env c) (hroot : st.descendsFromASplit x = false)
    {source : ChunkId} {g : List ChunkId} (hg : st.danglingSplits.lookup source = some g) : x ∉ g := by
  intro hmem
  obtain ⟨l, siblings, hl, hlin, -⟩ := (h.volatile.dangling source g hg).2.2 x hmem
  have hdirect : st.directLineage x = some (.splitFrom source siblings) :=
    (congrArg (Option.map _) hl).trans (congrArg some hlin)
  unfold descendsFromASplit at hroot
  rw [hdirect] at hroot
  cases hroot

theorem ReadyFor.conserves_pieces (h : st.ReadyFor env c) (hcs : Conserves cs st) (hc : c.id ∉ cs.map (·.id))
    (hroot : st.isRootChunk c.id = true) {k : Nat} (hsplit : SplitOf env 0 k c ps) :
    Conserves (c :: cs) (ps.foldl (storePiece c ps) (st.recordSplit c ps)) := by
  have hnew : ∀ p ∈ ps, ¬ st.Mentions p.id ∧ p.id ≠ c.id := by
    intro p hp
    obtain ⟨j, -, -, hid⟩ := hsplit.ids.mem p hp
    exact hid ▸ h.fresh j
  have hadds := foldl_storePiece_addsAll c ps ps (st.recordSplit c ps)
  have hinto := foldl_storePiece_splitInto c ps ps (st.recordSplit c ps) hsplit.ids.nodup
    fun p hp => ⟨(Available.of_not_mentions (hnew p hp).1).entry, (hnew p hp).2⟩
  have hdangling := (foldl_storePiece_records c ps ps (st.recordSplit c ps)).2
  have hrows := @foldl_storePiece_rows (st.recordSplit c ps) c ps ps
    (fun p hp => (Available.of_not_mentions (hnew p hp).1).physical) hsplit.ids.nodup
  generalize ps.foldl (storePiece c ps) (st.recordSplit c ps) = st' at hadds hinto hdangling hrows ⊢
  have hkept : ∀ x, x ∉ ps.map (·.id) → st'.physical x = st.physical x := fun x hx => (hadds.spares hx).1
  have hunused : ∀ {x}, st.Mentions x → x ∉ ps.map (·.id) := by
    intro x hx hmem
    obtain ⟨p, hp, rfl⟩ := List.mem_map.mp hmem
    exact (hnew p hp).1 hx
  have hdangling' : ∀ x, st'.danglingSplits.lookup x =
      if x = c.id then some (ps.map (·.id)) else st.danglingSplits.lookup x := by
    intro x
    rw [hdangling]
    exact lookup_insert_ite _ _ _ _
  have hentry : ∀ x, x ∉ ps.map (·.id) → st'.entry x =
      (st.entry x).map (gain (if x = c.id then (ps.map (·.id)).length else 0)) := fun x hx =>
    (hinto.entry x).trans (if_neg hx)
  refine hcs.insert hc hroot ?_ ?_ (fun d hd hlocated => ?_) fun x hx l hl => ?_
  · rw [← hsplit.rows]
    exact hrows
  · exact .cut ((hdangling' c.id).trans (if_pos rfl)) (fun p hp => hadds.added hsplit.ids.nodup hp) hsplit.rows
  · refine hlocated.of_kept (fun hphys => .whole ?_) (fun y l sources hl hlin => ?_) fun qs hqs hphys => ⟨?_, ?_⟩
    · unfold IsPhysical
      rw [hkept d.id (hunused hlocated.mentions)]
      exact hphys
    · exact ⟨gain _ l, by rw [hentry y (hunused (.tracked hl)), hl]; rfl, hlin⟩
    · have hne : d.id ≠ c.id := fun heq => hc (heq ▸ mem_map_of_mem hd)
      rw [hdangling', if_neg hne]
      exact hqs
    · intro q hq
      rw [hkept q.id (hunused (.physical (hphys q hq)))]
      exact hphys q hq
  · have hx' : x ∉ ps.map (·.id) := by
      rcases hx with hx | rfl
      · exact hunused hx
      · intro hmem
        obtain ⟨p, hp, heq⟩ := List.mem_map.mp hmem
        exact (hnew p hp).2 heq
    rw [hentry x hx'] at hl
    obtain ⟨l₀, hl₀, rfl⟩ := map_eq_some_iff.mp hl
    exact ⟨l₀, hl₀, rfl⟩

theorem ReadyFor.conserves_whole (h : st.ReadyFor env c) (hcs : Conserves cs st) (hc : c.id ∉ cs.map (·.id))
    (hroot : st.isRootChunk c.id = true) : Conserves (c :: cs) ((st.indexChunk c).storePhysical c) := by
  have hphysical : ∀ x, ((st.indexChunk c).storePhysical c).physical x = if x = c.id then some c else st.physical x :=
    fun x => lookup_insert_ite _ _ _ _
  have hentry : ∀ x, ((st.indexChunk c).storePhysical c).entry x =
      (st.entry x).map (gain (if x = c.id then 1 else 0)) := addReference_entry st.toLineageDroppingCtx c.id
  refine hcs.insert hc hroot (physicalRows_of_stored h.absent rfl) (.whole ?_) (fun d hd hlocated => ?_)
    fun x _ l hl => ?_
  · unfold IsPhysical
    rw [hphysical, if_pos rfl]
    rfl
  · refine hlocated.of_kept (fun hphys => .whole ?_) (fun y l sources hl hlin => ?_) fun qs hqs hphys => ⟨hqs, ?_⟩
    · unfold IsPhysical
      rw [hphysical]
      split
      · rfl
      · exact hphys
    · exact ⟨gain _ l, by rw [hentry, hl]; rfl, hlin⟩
    · intro q hq
      have hne : q.id ≠ c.id := by
        intro heq
        have hsome := hphys q hq
        rw [heq, h.absent] at hsome
        cases hsome
      rw [hphysical, if_neg hne]
      exact hphys q hq
  · rw [hentry] at hl
    obtain ⟨l₀, hl₀, rfl⟩ := map_eq_some_iff.mp hl
    exact ⟨l₀, hl₀, rfl⟩

theorem ReadyFor.conserves_merged (h : st.ReadyFor env c) (hcs : Conserves cs st) (hc : c.id ∉ cs.map (·.id))
    (hroot : st.isRootChunk c.id = true) {elected m : Chunk} (helected : st.physical elected.id = some elected)
    (hne : c.id ≠ elected.id) (hpiece : st.descendsFromASplit elected.id = false) {j : Nat}
    (hid : m.id = env.newId j) (hrows : m.rows.Perm (elected.rows ++ c.rows)) :
    Conserves (c :: cs) (((st.indexChunk m).recordCompaction c elected m).storePhysical m) := by
  obtain ⟨hm, hmc⟩ := hid ▸ h.fresh j
  have hst' := merged_compactedInto h.tracked helected hne (.of_not_mentions hm) hmc
  have hfinal := recordCompaction_rows (c := c) helected (Available.of_not_mentions hm).physical hrows
  generalize ((st.indexChunk m).recordCompaction c elected m).storePhysical m = st' at hst' hfinal ⊢
  have hsource : ∀ {x}, x ∈ (compactionSources c elected).map Chunk.id ↔ x = c.id ∨ x = elected.id :=
    mem_compactionSources hne
  have hmerge := (hst'.entry m.id).trans (if_pos rfl)
  have hkeptEntry : ∀ x, st.Mentions x ∨ x = c.id → st'.entry x =
      (st.entry x).map (gain (if x = c.id then 1 else 0)) := by
    intro x hx
    rw [hst'.entry, if_neg]
    intro heq
    rcases hx with hx | hx
    · exact hm (heq ▸ hx)
    · exact hmc (heq.symm.trans hx)
  have hkept : ∀ x, st.IsPhysical x → x ≠ elected.id → st'.physical x = st.physical x := by
    intro x hx hxe
    obtain ⟨d, hd⟩ := isSome_iff_exists.mp hx
    have hxm : x ≠ m.id := fun heq => hm (heq ▸ .physical hd)
    rw [hst'.physical, if_neg hxm, if_neg hxe]
  refine hcs.insert hc hroot hfinal (.merged hmerge rfl (hsource.mpr (.inl rfl))) (fun d hd hlocated => ?_)
    fun x hx l hl => ?_
  · refine hlocated.of_kept (fun hphys => ?_) (fun y l sources hl hlin => ?_) fun qs hqs hphys => ⟨?_, ?_⟩
    · by_cases hde : d.id = elected.id
      · exact .merged hmerge rfl (hsource.mpr (.inr hde))
      · refine .whole ?_
        unfold IsPhysical
        rw [hkept d.id hphys hde]
        exact hphys
    · exact ⟨gain _ l, by rw [hkeptEntry y (.inl (.tracked hl)), hl]; rfl, hlin⟩
    · rw [hst'.dangling]
      exact hqs
    · intro q hq
      have hqe : q.id ≠ elected.id := fun heq =>
        h.not_piece hpiece hqs (heq ▸ mem_map_of_mem hq)
      rw [hkept q.id (by unfold IsPhysical; rw [hphys q hq]; rfl) hqe]
      exact hphys q hq
  · rw [hkeptEntry x hx] at hl
    obtain ⟨l₀, hl₀, rfl⟩ := map_eq_some_iff.mp hl
    exact ⟨l₀, hl₀, rfl⟩

theorem insertChunk_conserves {c : ValidChunk} (hst : st.Settled) (hdistinct : st.PiecesDistinct)
    (hfresh : Fresh env st c.toChunk) (hstatic : c.isStatic = false) (hacc : st.Accepts c.toChunk)
    (hcells : (Op.insertChunk env c).KeepsCells st) (h : Conserves cs st)
    (hc : c.toChunk ∈ cs ∨ ¬ st.Mentions c.id) :
    ∃ rest, Conserves (c.toChunk :: rest) (insertChunk env st c.toChunk).1 ∧
      (c.toChunk ∈ cs → cs.Perm (c.toChunk :: rest)) ∧ (c.toChunk ∉ cs → rest = cs) := by
  have hv := hst.order.sound
  obtain ⟨-, habsent, -⟩ := sound_of_earlyReturn c.wf hacc.2
  obtain ⟨rest, hrest, hnotin, hperm⟩ :=
    prepared_conserves hv hst.counted.tracked hst.volatile hdistinct c.wf hacc h hc
  have hready := prepared_readyFor hv hst.counted.tracked hst.volatile c.wf hfresh hacc
  have hroot := prepared_isRootChunk hacc habsent
  refine ⟨rest, ?_, hperm⟩
  obtain ⟨hins, -⟩ := insertChunk_cases hv c.wf hfresh hacc
  generalize (insertChunk env st c.toChunk).1 = st' at hins
  cases hins with
  | pieces _ hsplit _ => exact hready.conserves_pieces hrest hnotin hroot hsplit
  | static hs =>
    rw [hstatic] at hs
    cases hs
  | temporal _ _ => exact hready.conserves_whole hrest hnotin hroot
  | @merged elected m _ _ helected hne _ hpiece hid hmerge _ hwhole helect =>
    obtain ⟨j, hj⟩ := hid
    obtain ⟨hjoins, helectedCells, hownCells⟩ := hcells hacc hstatic hwhole elected helect
    exact hready.conserves_merged hrest hnotin hroot helected hne hpiece hj 
      (hmerge.rows hjoins helectedCells hownCells)

/-! ## Runs of insertions -/

/-- The stores that insertions of temporal chunks in row id order lead to from a new one, with the chunks that
were inserted, each of them once: a chunk is new, or it was inserted before. -/
inductive Ingest (allowed : ChunkStore → Op → Prop) : List Chunk → ChunkStore → Prop
  | new (config : ChunkSplitConfig) : Ingest allowed [] (.new config)
  | first {cs : List Chunk} {st : ChunkStore} {env : Env} {c : ValidChunk} (h : Ingest allowed cs st)
      (hstatic : c.isStatic = false) (hsorted : c.isSorted = true) (hnew : ∀ d ∈ cs, d.id ≠ c.id)
      (hunused : ¬ st.Mentions c.id) (hfresh : Fresh env st c.toChunk) (hallowed : allowed st (.insertChunk env c)) :
      Ingest allowed (c.toChunk :: cs) (insertChunk env st c.toChunk).1
  | again {cs : List Chunk} {st : ChunkStore} {env : Env} {c : ValidChunk} (h : Ingest allowed cs st)
      (hc : c.toChunk ∈ cs) (hfresh : Fresh env st c.toChunk) (hallowed : allowed st (.insertChunk env c)) :
      Ingest allowed cs (insertChunk env st c.toChunk).1

def isKept (c : Chunk) : Bool := !c.isEmpty && c.hasColumns

theorem isKept_iff : isKept c = true ↔ c.rowIds ≠ [] ∧ c.components.entries ≠ [] := by
  simp [isKept, Chunk.isEmpty, Chunk.hasColumns]

theorem isKept_of_accepts (hwf : c.WellFormed) (hacc : st.Accepts c) : isKept c = true := by
  obtain ⟨hsound, -, -⟩ := sound_of_earlyReturn hwf hacc.2
  exact isKept_iff.mpr ⟨hsound.nonempty, hsound.components⟩

theorem accepts_of_unused (hwf : c.WellFormed) (hsorted : c.isSorted = true) (hkept : isKept c = true)
    (hunused : ¬ st.Mentions c.id) : st.Accepts c := by
  have hav : Available st c.id := .of_not_mentions hunused
  obtain ⟨hnonempty, hcolumns⟩ := isKept_iff.mp hkept
  refine ⟨?_, earlyReturn_of_available ⟨⟨hwf, hnonempty, hsorted⟩, hcolumns⟩ hav⟩
  have hdirect : st.directLineage c.id = none := congrArg (Option.map _) hav.entry
  unfold isRootChunk
  rw [hdirect]

theorem Ingest.conserves (h : Ingest (fun st op => op.KeepsCells st) cs st) : st.Settled ∧ st.PiecesDistinct ∧
    (∀ d ∈ cs, d.isStatic = false) ∧ Conserves (cs.filter isKept) st := by
  induction h with
  | new config =>
    refine ⟨new_settled config, new_piecesDistinct config, fun d hd => ?_, .refl _, .nil, fun d hd => ?_, fun d hd => ?_⟩
    · cases hd
    · cases hd
    · cases hd
  | @first cs st env c hrun hstatic hsorted hnew hunused hfresh hcells ih =>
    obtain ⟨hst, hdistinct, htemporal, hconserves⟩ := ih
    refine ⟨hst.insertChunk hfresh, insertChunk_piecesDistinct hst.order.sound hdistinct c.wf hfresh,
      fun d hd => ?_, ?_⟩
    · rcases mem_cons.mp hd with rfl | hd
      · exact hstatic
      · exact htemporal d hd
    · by_cases hkept : isKept c.toChunk = true
      · have hacc := accepts_of_unused c.wf hsorted hkept hunused
        obtain ⟨rest, hrest, -, hsame⟩ :=
          insertChunk_conserves hst hdistinct hfresh hstatic hacc hcells hconserves (.inr hunused)
        have hnotin : c.toChunk ∉ cs.filter isKept := fun hmem =>
          hnew c.toChunk (mem_of_mem_filter hmem) rfl
        rw [filter_cons_of_pos hkept, ← hsame hnotin]
        exact hrest
      · rw [insertChunk_of_not_accepts fun hacc => hkept (isKept_of_accepts c.wf hacc), filter_cons_of_neg hkept]
        exact hconserves
  | @again cs st env c hrun hc hfresh hcells ih =>
    obtain ⟨hst, hdistinct, htemporal, hconserves⟩ := ih
    refine ⟨hst.insertChunk hfresh, insertChunk_piecesDistinct hst.order.sound hdistinct c.wf hfresh, htemporal, ?_⟩
    refine insertChunk_elim hconserves fun hacc => ?_
    have hmem : c.toChunk ∈ cs.filter isKept := mem_filter.mpr ⟨hc, isKept_of_accepts c.wf hacc⟩
    obtain ⟨rest, hrest, hperm, -⟩ :=
      insertChunk_conserves hst hdistinct hfresh (htemporal _ hc) hacc hcells hconserves (.inl hmem)
    exact hrest.perm (hperm hmem).symm

theorem flatMap_rows_isKept (cs : List Chunk) :
    (cs.filter isKept).flatMap Chunk.rows = (cs.filter Chunk.hasColumns).flatMap Chunk.rows := by
  have hfilter : cs.filter isKept = (cs.filter Chunk.hasColumns).filter fun c => !c.isEmpty :=
    List.filter_filter.symm
  rw [hfilter]
  generalize cs.filter Chunk.hasColumns = ds
  induction ds with
  | nil => rfl
  | cons c ds ih =>
    cases hempty : c.isEmpty with
    | false => rw [filter_cons_of_pos (by rw [hempty]; rfl), flatMap_cons, flatMap_cons, ih]
    | true =>
      have hnil : c.rowIds = [] := List.isEmpty_iff.mp hempty
      have hrows : c.rows = [] := by
        unfold Chunk.rows
        rw [hnil]
        rfl
      rw [filter_cons_of_neg (by simp [hempty]), flatMap_cons, hrows, nil_append, ih]

/-- In every run of insertions whose compactions lose no column and pad columns that can be padded, the rows of the physical chunks
are the rows of the inserted chunks that have component columns, each of them once. -/
theorem ingest_keeps_rows (h : Ingest (fun st op => op.KeepsCells st) cs st) :
    st.physicalRows.Perm ((cs.filter Chunk.hasColumns).flatMap Chunk.rows) := by
  obtain ⟨-, -, -, hconserves⟩ := h.conserves
  rw [← flatMap_rows_isKept]
  exact hconserves.rows

/-- The two chunks that are compacted, with the first one inserted again. -/
theorem ingest_keeps_rows_compacted :
    ((Op.insertChunk (.countingFrom 200) ⟨colorChunk (.ofCells [some [[2]]]), rfl⟩).run
      (compactedStore ⟨colorChunk (.ofCells [some [[2]]]), rfl⟩)).physicalRows.Perm
      ([plainChunk.toChunk, colorChunk (.ofCells [some [[2]]])].flatMap Chunk.rows) := by
  have hunused : ∀ {st : ChunkStore} {x : ChunkId}, x ∉ st.mentionedIds → ¬ st.Mentions x := fun hx h => hx h.mem
  have hfirst : Ingest (fun st op => op.KeepsCells st) [colorChunk (.ofCells [some [[2]]])]
      (colorStore ⟨colorChunk (.ofCells [some [[2]]]), rfl⟩) := by
    refine @Ingest.first _ _ _ (.countingFrom 100) ⟨colorChunk (.ofCells [some [[2]]]), rfl⟩ (.new ⟨9, 9, 9⟩) rfl rfl
      (fun d hd => ?_) (hunused (by decide)) fresh_countingFrom fun _ _ _ elected h => ?_
    · cases hd
    · cases (show (none : Option Chunk) = some elected from h)
  have hsecond : Ingest (fun st op => op.KeepsCells st) [plainChunk.toChunk, colorChunk (.ofCells [some [[2]]])]
      (compactedStore ⟨colorChunk (.ofCells [some [[2]]]), rfl⟩) := by
    refine @Ingest.first _ _ _ (.countingFrom 100) plainChunk hfirst rfl rfl (fun d hd => ?_)
      (hunused (by decide)) fresh_countingFrom fun _ _ _ elected h => ?_
    · rw [mem_singleton.mp hd]
      decide
    · obtain rfl := some.inj (show some (colorChunk (.ofCells [some [[2]]])) = some elected from h)
      exact ⟨Chunk.joinsColumns_countingFrom _ _ _, Chunk.Packed.paddableNextTo (by decide) _,
        Chunk.Packed.paddableNextTo (by decide) _⟩
  have hagain := @Ingest.again _ _ _ (.countingFrom 200) ⟨colorChunk (.ofCells [some [[2]]]), rfl⟩ hsecond
    (mem_cons_of_mem _ (mem_singleton_self _)) fresh_countingFrom
    fun hacc => absurd hacc (by decide)
  exact ingest_keeps_rows hagain

def columnlessChunk : ValidChunk where
  toChunk := .ofColumns 1 ⟨["robot"]⟩ 0 [1] [(⟨"frame"⟩, [I64.sat 0])] []
  sane := rfl

/-- It is dropped. -/
theorem columnlessChunk_not_kept : ¬ ∀ (cs : List Chunk) (st : ChunkStore), Ingest (fun _ _ => True) cs st →
    st.physicalRows.Perm (cs.flatMap Chunk.rows) := by
  intro h
  have hrun : Ingest (fun _ _ => True) [columnlessChunk.toChunk]
      (insertChunk (.countingFrom 100) (.new ⟨0, 0, 0⟩) columnlessChunk.toChunk).1 := by
    refine .first (.new _) rfl rfl (fun d hd => ?_) (fun hmentions => ?_)
      fresh_countingFrom trivial
    · cases hd
    · exact absurd hmentions.mem (by decide)
  have hlength := (h _ _ hrun).length_eq
  exact absurd hlength (by decide)

end ChunkStore

end Dalaran
