import Dalaran.Store.Duplicates

/-
  Loading a chunk that a manifest announced.

  A manifest lists an id before its chunk is there. Once the chunk is loaded,
  the id should either have a chunk or be listed nowhere: otherwise queries
  report it as missing, and it is fetched again and again. Loading a chunk
  leaves such a ghost behind
    - when the chunk is known to be compacted away and the id is listed again:
      the early return for that case does not look at the indices;
    - when the chunk is split or compacted, and some listing of its id is not at
      the chunk's own slots, or no manifest is known to have announced it: the
      clean-up reconstructs the listings from the ranges of the chunk.
  `insertChunk_leaves_no_ghost_iff` says that it leaves none in any other case.
-/

namespace Dalaran

open List

namespace Catalog

theorem AddsAll.spares {id : ChunkId} : ∀ {cs : List Chunk} {v w : Catalog}, AddsAll cs v w →
    id ∉ cs.map (·.id) → w.chunks id = v.chunks id ∧ ∀ s, w.listed id s ↔ v.listed id s
  | [], _, _, h, _ => by
    rw [h]
    exact ⟨rfl, fun _ => Iff.rfl⟩
  | c :: cs, v, w, ⟨u, hadd, hrest⟩, hid => by
    rw [map_cons, mem_cons, not_or] at hid
    obtain ⟨hc, hl⟩ := AddsAll.spares hrest hid.2
    refine ⟨hc.trans ((hadd.chunks id).trans (if_neg hid.1)), fun s => (hl s).trans ?_⟩
    rw [hadd.listed]
    simp [hid.1]

theorem AddsAll.added : ∀ {cs : List Chunk} {v w : Catalog}, AddsAll cs v w → (cs.map (·.id)).Nodup →
    ∀ {c : Chunk}, c ∈ cs → w.chunks c.id = some c
  | d :: cs, v, w, ⟨u, hadd, hrest⟩, hnodup, c, hc => by
    rw [map_cons, nodup_cons] at hnodup
    rcases mem_cons.mp hc with rfl | hmem
    · exact (AddsAll.spares hrest hnodup.1).1.trans ((hadd.chunks c.id).trans (if_pos rfl))
    · exact hrest.added hnodup.2 hmem

end Catalog

/-- The ranges of a chunk are the ones a manifest announced for its id. -/
def DlrManifest.AgreesWith (manifest : DlrManifest) (c : Chunk) : Prop :=
  (∀ p ∈ Assoc.toList manifest.temporalMap, p.1.2.2.2 = c.id →
    p.1.1 = c.entityPath ∧ c.componentRange p.1.2.1.name p.1.2.2.1 = some p.2.timeRange) ∧
  ∀ r ∈ c.componentRanges, ∃ p ∈ Assoc.toList manifest.temporalMap, p.1.2.2.2 = c.id ∧
    p.1.1 = r.1.1 ∧ p.1.2.1.name = r.1.2.1 ∧ p.1.2.2.1 = r.1.2.2 ∧ p.2.timeRange = r.2

instance (manifest : DlrManifest) (c : Chunk) : Decidable (manifest.AgreesWith c) :=
  inferInstanceAs (Decidable (_ ∧ _))

namespace ChunkStore

variable {st : ChunkStore}

/-- No ghost of an id: it has a chunk, or no virtual index lists it. -/
def NoGhostOf (st : ChunkStore) (id : ChunkId) : Prop :=
  st.IsPhysical id ∨ ∀ s, ¬ st.ListedAt id s

def LeavesNoGhost (env : Env) (st : ChunkStore) (c : Chunk) : Prop :=
  st.IsPhysical c.id ∨ (st.leakyChainIsLive c.id = true ∧ ∀ s, ¬ st.ListedAt c.id s) ∨
    (st.leakyChainIsLive c.id = false ∧ (st.keepsId env c = true ∨
      ∀ s, st.ListedAt c.id s → st.isRootFromManifest c.id = true ∧ c.OwnSlot s))

theorem insertChunk_noGhostOf_iff {env : Env} {c : Chunk} (hv : st.catalog.Sound) (hwf : c.WellFormed)
    (hfresh : Fresh env st c) (hacc : st.Accepts c) : (insertChunk env st c).1.NoGhostOf c.id ↔
      st.keepsId env c = true ∨ ∀ s, st.ListedAt c.id s → st.isRootFromManifest c.id = true ∧ c.OwnSlot s := by
  obtain ⟨hc, habsent, -⟩ := sound_of_earlyReturn hwf hacc.2
  obtain ⟨cs, v, h⟩ := insertChunk_refines hv hwf hfresh hacc
  have habsent' : v.chunks c.id = none := h.removes.absent habsent
  have hnew : c.id ∉ cs.map (·.id) → st.keepsId env c = false →
      ((insertChunk env st c).1.NoGhostOf c.id ↔ st.keepsId env c = true ∨
        ∀ s, st.ListedAt c.id s → st.isRootFromManifest c.id = true ∧ c.OwnSlot s) := by
    intro hid hkeeps
    obtain ⟨hchunks, hlisted⟩ := h.adds.spares hid
    have hphys : ¬ (insertChunk env st c).1.IsPhysical c.id := by
      have : (insertChunk env st c).1.physical c.id = none := hchunks.trans habsent'
      simp [IsPhysical, this]
    have hlisted' : ∀ s, (insertChunk env st c).1.ListedAt c.id s ↔
        st.ListedAt c.id s ∧ ¬ (st.isRootFromManifest c.id = true ∧ c.OwnSlot s) :=
      fun s => (hlisted s).trans (h.listed s)
    unfold NoGhostOf
    simp [hphys, hkeeps, hlisted']
  cases h.stored with
  | pieces _ hkeeps hsplit =>
    refine hnew (fun hmem => ?_) hkeeps
    obtain ⟨p, hp, hid⟩ := mem_map.mp hmem
    obtain ⟨j, -, -, hpid⟩ := hsplit.ids.mem p hp
    exact (hfresh j).2 (hpid.symm.trans hid)
  | merged _ hkeeps _ _ hid _ _ =>
    refine hnew (fun hmem => ?_) hkeeps
    obtain ⟨j, hj⟩ := hid
    exact (hfresh j).2 (hj.symm.trans (mem_singleton.mp hmem).symm)
  | whole hkeeps =>
    refine iff_of_true (.inl ?_) (.inl hkeeps)
    obtain ⟨w, hadd, hw⟩ := h.adds
    have hphys : (insertChunk env st c).1.catalog.chunks c.id = some c := by
      rw [hw, hadd.chunks, if_pos rfl]
    exact Option.isSome_of_eq_some hphys

/-- Loading a root chunk leaves a ghost of it in exactly the cases there are. -/
theorem insertChunk_leaves_no_ghost_iff (hst : Reachable (fun _ op => op.isIngestOrGc = true) st)
    {env : Env} {c : ValidChunk} (hfresh : Fresh env st c.toChunk) (hroot : st.isRootChunk c.id = true)
    (hrows : c.rowIds ≠ []) (hcomponents : c.components.entries ≠ [])
    (hok : ∃ diffs, (insertChunk env st c.toChunk).2 = .ok diffs) :
    (insertChunk env st c.toChunk).1.NoGhostOf c.id ↔ st.LeavesNoGhost env c.toChunk := by
  by_cases hphys : st.IsPhysical c.id
  · refine iff_of_true ?_ (.inl hphys)
    have hacc : ¬ st.Accepts c.toChunk := fun hacc => by
      have := (sound_of_earlyReturn c.wf hacc.2).2.1
      simp [IsPhysical, this] at hphys
    rw [insertChunk_of_not_accepts hacc]
    exact .inl hphys
  · have h1 : c.isEmpty = false := by simpa [Chunk.isEmpty] using hrows
    have h2 : c.components.entries.isEmpty = false := by simpa using hcomponents
    have hearly : st.earlyReturn c.toChunk = if !c.isSorted then some (.error .unsortedChunk)
        else if st.leakyChainIsLive c.id then some (.ok ()) else none := by
      simp [earlyReturn, h1, h2, hphys]
    have hsorted : c.isSorted = true := by
      by_contra hs
      have hs' : c.isSorted = false := by simpa using hs
      obtain ⟨diffs, hdiffs⟩ := hok
      simp [insertChunk, hroot, insertChunkImpl, hearly, hs', Except.map] at hdiffs
    rw [hsorted] at hearly
    unfold LeavesNoGhost
    cases hlive : st.leakyChainIsLive c.id with
    | true =>
      have hacc : ¬ st.Accepts c.toChunk := fun hacc => by
        rw [hacc.2, hlive] at hearly
        simp at hearly
      rw [insertChunk_of_not_accepts hacc]
      simp [NoGhostOf, hphys]
    | false =>
      have hacc : st.Accepts c.toChunk := ⟨hroot, by simpa [hlive] using hearly⟩
      rw [insertChunk_noGhostOf_iff hst.sound c.wf hfresh hacc]
      simp [hphys]

def cutStore : ChunkStore := (Op.insertDlrManifest interleavedManifest).run (.new ⟨0, 2, 0⟩)

/-- The manifest agrees with the chunk, and still a start of its id stays listed without a chunk. -/
theorem cutStore_keeps_ghost :
    Reachable (fun _ op => op.isIngestOrGc = true) cutStore ∧
      Fresh (.countingFrom 100) cutStore interleavedChunk.toChunk ∧
      interleavedManifest.AgreesWith interleavedChunk.toChunk ∧
      cutStore.isRootChunk interleavedChunk.id = true ∧
      (∃ diffs, (insertChunk (.countingFrom 100) cutStore interleavedChunk.toChunk).2 = .ok diffs) ∧
      ¬ (insertChunk (.countingFrom 100) cutStore interleavedChunk.toChunk).1.NoGhostOf
        interleavedChunk.id := by
  refine ⟨.step (.new _) trivial rfl, fresh_countingFrom, by decide, by decide,
    ⟨_, rfl⟩, ?_⟩
  rintro (h | h)
  · revert h
    decide
  · refine h (.timeline ⟨["robot"]⟩ ⟨"frame"⟩ .start ⟨.sat 3⟩) ?_
    decide

/-- Without limits on its size the chunk is stored under its own id. -/
theorem announcedStore_leaves_no_ghost :
    (insertChunk (.countingFrom 100) announcedStore interleavedChunk.toChunk).1.NoGhostOf
      interleavedChunk.id := by
  have hst : Reachable (fun _ op => op.isIngestOrGc = true) announcedStore :=
    .step (.new _) trivial rfl
  exact (insertChunk_leaves_no_ghost_iff hst fresh_countingFrom (by decide)
    (by decide) (by decide) ⟨_, rfl⟩).mpr (.inr (.inr ⟨by decide, .inl (by decide)⟩))

end ChunkStore

end Dalaran
