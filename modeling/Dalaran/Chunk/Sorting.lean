import Dalaran.Chunk.Merge

/-
  Sorting a chunk (`shuffle.rs`): by row id, and by the times of one timeline.

  Both sorts draw up a list of swaps and hand it to `shuffle_with`
  (`shuffleWith_reordered`).

  `sorted_by_timeline_if_unsorted` promises rows in the order of (time, row id), and
  returns the chunk as it is when the time column is marked sorted, so rows with
  equal times keep whatever order they are in (`sorting_keeps_rows_iff`).
-/

namespace Dalaran

open Option

/-! ## Sorting by a timeline -/

namespace Chunk

/-- Sort the rows by time and row id. An id is drawn before the shuffle and again in it. -/
def sortedByTimelineIfUnsorted (env : Env) (k : Nat) (c : Chunk) (timeline : TimelineName) : Chunk × Nat :=
  match c.timelines.lookup timeline with
  | none => (c, k)
  | some tc =>
    if tc.isSorted then (c, k)
    else
      let id := env.newId (k + 1)
      let keys : List (I64 ×ₗ RowId) := List.zipWith (fun t r => toLex (t, r)) tc.times c.rowIds
      (c.shuffleWith id (env.sizeBytes id) (Seq.stableSortIndices keys), k + 2)

/-- A chunk with the rows of another in some order: same entity and columns, every cache right. -/
structure Reordered (s c : Chunk) : Prop where
  entityPath : s.entityPath = c.entityPath
  sane : s.sanityCheck = .ok ()
  timelines : ∀ name, (s.timelines.lookup name).map (·.timeline) = (c.timelines.lookup name).map (·.timeline)
  components : ∀ component, (s.components.lookup component).map (·.archetype) =
    (c.components.lookup component).map (·.archetype)
  rows : s.rows.Perm c.rows

variable {c : Chunk} {swaps : List Nat}

theorem Reordered.refl (hwf : c.WellFormed) : c.Reordered c :=
  ⟨rfl, sanityCheck_iff.mpr hwf, fun _ => rfl, fun _ => rfl, List.Perm.refl _⟩

theorem shuffleWith_reordered (hwf : c.WellFormed) (hs : swaps.Perm (List.range c.numRows))
    (id : ChunkId) (size : Nat) : (c.shuffleWith id size swaps).Reordered c := by
  refine ⟨rfl, sanityCheck_iff.mpr (shuffleWith_wf hwf hs id size), fun name => ?_, fun component => ?_, ?_⟩
  · rw [shuffleWith, Assoc.lookup_map, map_map]
    rfl
  · rw [shuffleWith, Assoc.lookup_map, map_map]
    rfl
  · rw [shuffleWith_rows hwf hs]
    apply Seq.permute_perm
    rw [rows_length]
    exact hs

theorem sortByRowIdsIfNeeded_wf {env : Env} {k : Nat} (hwf : c.WellFormed) :
    (c.sortByRowIdsIfNeeded env k).1.WellFormed ∧ (c.sortByRowIdsIfNeeded env k).1.isSorted = true := by
  unfold sortByRowIdsIfNeeded
  cases hsorted : c.isSorted with
  | true => exact ⟨hwf, hsorted⟩
  | false =>
    refine ⟨shuffleWith_wf hwf (Seq.stableSortIndices_perm c.rowIds) _ _, ?_⟩
    exact Seq.ascending_permute_stableSortIndices c.rowIds

/-! ## What sorting promises -/

/-- Sorting by row id: the same rows, ascending by row id, and a second sort changes nothing. -/
def RowIdSortIsRight (env : Env) (k : Nat) (c : Chunk) : Prop :=
  let s := (c.sortByRowIdsIfNeeded env k).1
  s.Reordered c ∧ Seq.ascending s.rowIds = true ∧ ∀ k', s.sortByRowIdsIfNeeded env k' = (s, k')

/-- The rows of a chunk ascend by their time on a timeline and their row id. -/
def AscendsOn (c : Chunk) (timeline : TimelineName) : Prop :=
  ∀ tc, c.timelines.lookup timeline = some tc → Seq.ascending (Seq.lexZip tc.times c.rowIds) = true

/-- Sorting by a timeline: the same rows, ascending by time and row id, and a second sort changes
nothing. -/
def TimelineSortIsRight (env : Env) (k : Nat) (c : Chunk) (timeline : TimelineName) : Prop :=
  let s := (c.sortedByTimelineIfUnsorted env k timeline).1
  s.Reordered c ∧ s.AscendsOn timeline ∧ ∀ k', s.sortedByTimelineIfUnsorted env k' timeline = (s, k')

/-- Where the times of a timeline ascend, rows with equal times are in the order of their row ids. -/
def TiesInRowIdOrder (c : Chunk) (timeline : TimelineName) : Prop :=
  ∀ tc, c.timelines.lookup timeline = some tc → Seq.ascending tc.times = true → Seq.tiesAscending tc.times c.rowIds

theorem sortByRowIdsIfNeeded_right (env : Env) (k : Nat) (hwf : c.WellFormed) : RowIdSortIsRight env k c := by
  unfold RowIdSortIsRight sortByRowIdsIfNeeded
  by_cases hs : c.isSorted = true
  · rw [if_pos hs]
    exact ⟨.refl hwf, hwf.isSorted_eq.symm.trans hs, fun k' => if_pos hs⟩
  · rw [if_neg hs]
    have hsorted := Seq.ascending_permute_stableSortIndices c.rowIds
    exact ⟨shuffleWith_reordered hwf (Seq.stableSortIndices_perm c.rowIds) _ _, hsorted, fun k' => if_pos hsorted⟩

variable {timeline : TimelineName}

theorem sortedByTimelineIfUnsorted_of_none (env : Env) (k : Nat)
    (h : c.timelines.lookup timeline = none) :
    c.sortedByTimelineIfUnsorted env k timeline = (c, k) := by
  unfold sortedByTimelineIfUnsorted
  rw [h]

theorem sortedByTimelineIfUnsorted_of_sorted (env : Env) (k : Nat) {timeline : TimelineName}
    {tc : TimeColumn} (h : c.timelines.lookup timeline = some tc) (hs : tc.isSorted = true) :
    c.sortedByTimelineIfUnsorted env k timeline = (c, k) := by
  unfold sortedByTimelineIfUnsorted
  rw [h]
  exact if_pos hs

theorem sortedByTimelineIfUnsorted_of_unsorted (env : Env) (k : Nat) (hwf : c.WellFormed)
    {tc : TimeColumn} (h : c.timelines.lookup timeline = some tc)
    (hs : tc.isSorted = false) : TimelineSortIsRight env k c timeline := by
  have hlen : tc.times.length = c.rowIds.length := hwf.times_length _ _ h
  have hswaps := Seq.stableSortIndices_perm (Seq.lexZip tc.times c.rowIds)
  have hsorted := Seq.ascending_permute_stableSortIndices (Seq.lexZip tc.times c.rowIds)
  rw [Seq.lexZip_length hlen, hlen] at hswaps
  -- the keys in their order are the times and the row ids, each in that order
  rw [Seq.permute_lexZip hlen fun i hi => hlen ▸ lt_of_mem_swaps hswaps i hi] at hsorted
  unfold TimelineSortIsRight
  have heq : (c.sortedByTimelineIfUnsorted env k timeline).1 = c.shuffleWith (env.newId (k + 1))
      (env.sizeBytes (env.newId (k + 1))) (Seq.stableSortIndices (Seq.lexZip tc.times c.rowIds)) := by
    unfold sortedByTimelineIfUnsorted
    rw [h]
    simp only [hs, Bool.false_eq_true, if_false]
    rfl
  rw [heq]
  generalize hord : Seq.stableSortIndices (Seq.lexZip tc.times c.rowIds) = swaps at hswaps hsorted
  have hlook : ∀ id size, (c.shuffleWith id size swaps).timelines.lookup timeline =
      some { tc with times := Seq.permute tc.times swaps
                     isSorted := Seq.ascending (Seq.permute tc.times swaps) } := by
    intro id size
    rw [shuffleWith, Assoc.lookup_map, h, map_some]
  have hlens : (Seq.permute tc.times swaps).length = (Seq.permute c.rowIds swaps).length := by
    rw [Seq.permute_length (lt_of_mem_swaps hswaps),
      Seq.permute_length fun i hi => hlen ▸ lt_of_mem_swaps hswaps i hi]
  refine ⟨shuffleWith_reordered hwf hswaps _ _, fun tc' htc' => ?_, fun k' => ?_⟩
  · rw [hlook] at htc'
    cases htc'
    exact hsorted
  · exact sortedByTimelineIfUnsorted_of_sorted env k' (hlook _ _) ((Seq.ascending_lexZip_iff hlens).mp hsorted).1

theorem sortedByTimelineIfUnsorted_wf {env : Env} {k : Nat} {timeline : TimelineName}
    (hwf : c.WellFormed) : (c.sortedByTimelineIfUnsorted env k timeline).1.WellFormed := by
  cases htc : c.timelines.lookup timeline with
  | none =>
    rw [sortedByTimelineIfUnsorted_of_none env k htc]
    exact hwf
  | some tc =>
    cases hs : tc.isSorted with
    | true =>
      rw [sortedByTimelineIfUnsorted_of_sorted env k htc hs]
      exact hwf
    | false => exact sanityCheck_iff.mp (sortedByTimelineIfUnsorted_of_unsorted env k hwf htc hs).1.sane

theorem sortedByTimelineIfUnsorted_components {env : Env} {k : Nat}
    (hwf : c.WellFormed) (name : ComponentIdentifier) :
    ((c.sortedByTimelineIfUnsorted env k timeline).1.components.lookup name).isSome =
      (c.components.lookup name).isSome := by
  cases htc : c.timelines.lookup timeline with
  | none => rw [sortedByTimelineIfUnsorted_of_none env k htc]
  | some tc =>
    cases hs : tc.isSorted with
    | true => rw [sortedByTimelineIfUnsorted_of_sorted env k htc hs]
    | false =>
      have hcolumns := (sortedByTimelineIfUnsorted_of_unsorted env k hwf htc hs).1.components name
      rw [← isSome_map, hcolumns, isSome_map]

/-- Sorting by row id is always right; sorting by a timeline is right exactly where an ascending
time column has its ties in the order of the row ids. -/
theorem sorting_keeps_rows_iff (env : Env) (k : Nat) (c : ValidChunk) (timeline : TimelineName) :
    RowIdSortIsRight env k c.toChunk ∧
      (TimelineSortIsRight env k c.toChunk timeline ↔ c.toChunk.TiesInRowIdOrder timeline) := by
  refine ⟨sortByRowIdsIfNeeded_right env k c.wf, ?_⟩
  cases htc : c.timelines.lookup timeline with
  | none =>
    have heq := fun k => sortedByTimelineIfUnsorted_of_none env k htc
    refine ⟨fun _ tc h => ?_, fun _ => ?_⟩
    · rw [htc] at h
      cases h
    · unfold TimelineSortIsRight
      rw [heq k]
      refine ⟨.refl c.wf, fun tc h => ?_, heq⟩
      rw [htc] at h
      cases h
  | some tc =>
    have hflag := (c.wf.times_wf _ _ htc).isSorted_eq
    have hlen : tc.times.length = c.rowIds.length := c.wf.times_length _ _ htc
    cases hs : tc.isSorted with
    | false =>
      -- the shuffle happens, and the condition asks nothing
      refine ⟨fun _ tc' h hasc => ?_, fun _ => sortedByTimelineIfUnsorted_of_unsorted env k c.wf htc hs⟩
      rw [htc] at h
      cases h
      rw [hflag, hasc] at hs
      cases hs
    | true =>
      have heq := fun k => sortedByTimelineIfUnsorted_of_sorted env k htc hs
      have hasc : Seq.ascending tc.times = true := hflag.symm.trans hs
      have hiff : c.toChunk.AscendsOn timeline ↔ c.toChunk.TiesInRowIdOrder timeline := by
        constructor
        · intro h tc' htc' _
          rw [htc] at htc'
          cases htc'
          exact ((Seq.ascending_lexZip_iff hlen).mp (h tc htc)).2
        · intro h tc' htc'
          rw [htc] at htc'
          cases htc'
          exact (Seq.ascending_lexZip_iff hlen).mpr ⟨hasc, h tc htc hasc⟩
      unfold TimelineSortIsRight
      rw [heq k]
      exact ⟨fun h => hiff.mp h.2.1, fun h => ⟨.refl c.wf, hiff.mpr h, heq⟩⟩

/-- Two rows at one time, the greater row id first. -/
def tiedChunk : ValidChunk where
  toChunk := ofColumns 1 ⟨["robot"]⟩ 0 [2, 1] [(⟨"frame"⟩, [5, 5].map I64.sat)]
    [(⟨"position"⟩, [some [], some []])]
  sane := rfl

/-- Sorting that chunk by its timeline leaves the greater row id in front. -/
theorem sortedByTimeline_keeps_ties :
    (tiedChunk.toChunk.sortedByTimelineIfUnsorted (.countingFrom 100) 0 ⟨"frame"⟩).1.rowIds = [2, 1] ∧
      ¬ (∀ env k (c : ValidChunk) timeline,
        RowIdSortIsRight env k c.toChunk ∧ TimelineSortIsRight env k c.toChunk timeline) := by
  have hsame := @sortedByTimelineIfUnsorted_of_sorted tiedChunk.toChunk (.countingFrom 100) 0 ⟨"frame"⟩ _ rfl rfl
  refine ⟨by rw [hsame]; rfl, fun h => ?_⟩
  have hright := ((h (.countingFrom 100) 0 tiedChunk ⟨"frame"⟩).2).2.1
  exact absurd (hright _ rfl) (by decide)

end Chunk

end Dalaran
