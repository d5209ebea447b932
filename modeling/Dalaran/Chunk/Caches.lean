import Dalaran.Base.Runs
import Dalaran.Chunk.Slices

/-
  The caches of a chunk along any sequence of operations.

  An operation keeps a cache, derives it or recomputes it. Only `taken` and
  `deduped_latest_on_index` keep flags that need not hold of the rows they take;
  they are right exactly where the flags do (`KeepsCaches`), and a run of which
  every step meets that is right throughout (`runs_keep_caches`).
-/

namespace Dalaran

open List Option Assoc Prod

/-! ## Honest caches -/

/-- The caches of a time column are what a new column over its times would have. Without a time
there is nothing to take a range of. -/
structure TimeColumn.CachesHonest (tc : TimeColumn) : Prop where
  isSorted_eq : tc.isSorted = Seq.ascending tc.times
  timeRange_eq : tc.times ≠ [] → tc.timeRange = (TimeColumn.new none tc.timeline tc.times).timeRange

theorem TimeColumn.WellFormed.timeRange_unique {a b : TimeColumn} (ha : a.WellFormed) (hb : b.WellFormed)
    (htimes : a.times = b.times) (hne : a.times ≠ []) : a.timeRange = b.timeRange := by
  have hmin : a.timeRange.min.asI64 = b.timeRange.min.asI64 := by
    apply le_antisymm
    · exact ha.min_le _ (htimes ▸ hb.min_mem (htimes ▸ hne))
    · exact hb.min_le _ (htimes ▸ ha.min_mem hne)
  have hmax : a.timeRange.max.asI64 = b.timeRange.max.asI64 := by
    apply le_antisymm
    · exact hb.le_max _ (htimes ▸ ha.max_mem hne)
    · exact ha.le_max _ (htimes ▸ hb.max_mem (htimes ▸ hne))
  exact congrArg₂ AbsoluteTimeRange.mk (TimeInt.asI64_injective hmin) (TimeInt.asI64_injective hmax)

theorem TimeColumn.WellFormed.cachesHonest {tc : TimeColumn} (h : tc.WellFormed) : tc.CachesHonest := by
  refine ⟨h.isSorted_eq, fun hne => h.timeRange_unique ?_ rfl hne⟩
  apply TimeColumn.new_wf
  · rintro b ⟨⟩
  · exact h.temporal

namespace Chunk

/-- The flag of the chunk and the caches of every time column are right. -/
structure CachesHonest (c : Chunk) : Prop where
  isSorted_eq : c.isSorted = Seq.ascending c.rowIds
  times : ∀ name tc, c.timelines.lookup name = some tc → tc.CachesHonest

theorem WellFormed.cachesHonest {c : Chunk} (h : c.WellFormed) : c.CachesHonest :=
  ⟨h.isSorted_eq, fun name tc htc => (h.times_wf name tc htc).cachesHonest⟩

/-! ## Operations -/

inductive Operation where
  | rowSlicedDeep (index len : Nat)
  | rowSlicedShallow (index len : Nat)
  | filtered (mask : List Bool)
  | densified (componentPov : ComponentIdentifier)
  | taken (indices : List Nat)
  | dedupedLatestOnIndex (index : TimelineName)
  | sortByRowIdsIfNeeded
  | sortedByTimelineIfUnsorted (timeline : TimelineName)
  | shuffled (swaps : List Nat)
  | concatAndSort (left : Bool) (other : ValidChunk)
  | splitPiece (cfg : ChunkSplitConfig) (n : Nat)

/-- What an operation makes of a chunk, with the number of ids used: `none` for a mask of the wrong
length, an index out of range, swaps that are no permutation, chunks that do not concatenate, and a
piece that there is not. -/
def apply (env : Env) (s : Chunk × Nat) : Operation → Option (Chunk × Nat)
  | .rowSlicedDeep index len =>
    some (s.1.rowSlicedDeep (env.newId s.2) (env.sizeBytes (env.newId s.2)) index len, s.2 + 1)
  | .rowSlicedShallow index len =>
    some (s.1.rowSlicedShallow (env.newId s.2) (env.sizeBytes (env.newId s.2)) index len, s.2 + 1)
  | .filtered mask => s.1.filtered env s.2 mask
  | .densified componentPov =>
    let densified := s.1.densified env s.2 componentPov
    some (densified.1, densified.2.2)
  | .taken indices =>
    if ∀ i ∈ indices, i < s.1.numRows then some (s.1.taken env s.2 indices) else none
  | .dedupedLatestOnIndex index => some (s.1.dedupedLatestOnIndex env s.2 index)
  | .sortByRowIdsIfNeeded => some (s.1.sortByRowIdsIfNeeded env s.2)
  | .sortedByTimelineIfUnsorted timeline => some (s.1.sortedByTimelineIfUnsorted env s.2 timeline)
  | .shuffled swaps =>
    if swaps.Perm (List.range s.1.numRows) then
      some (s.1.shuffleWith (env.newId s.2) (env.sizeBytes (env.newId s.2)) swaps, s.2 + 1)
    else none
  | .concatAndSort left other =>
    (if left then other.toChunk.concatAndSort env s.2 s.1
      else s.1.concatAndSort env s.2 other.toChunk).toOption
  | .splitPiece cfg n =>
    let split := splitChunkIfNeeded env cfg s.2 s.1
    (split.1[n]?).map fun piece => (piece, split.2)

/-- The flags of the time columns still say what is so of the rows at some indices. -/
def TimeFlagsHoldAt (c : Chunk) (indices : List Nat) : Prop :=
  ∀ name tc, c.timelines.lookup name = some tc → tc.isSorted = Seq.ascending (Seq.permute tc.times indices)

/-- What the chunk has to be like for an operation to get the caches right. Taking keeps a set flag of
the row ids and every flag of the times; deduplicating keeps all flags. -/
def KeepsCaches (s : Chunk × Nat) : Operation → Prop
  | .taken indices => s.1.rowIds ≠ [] → indices ≠ [] →
      (s.1.isSorted = true → Seq.ascending (Seq.permute s.1.rowIds indices) = true) ∧ s.1.TimeFlagsHoldAt indices
  | .dedupedLatestOnIndex index => ∀ tc, s.1.timelines.lookup index = some tc →
      s.1.isSorted = Seq.ascending (Seq.permute s.1.rowIds (Seq.runEnds 0 tc.times)) ∧
        s.1.TimeFlagsHoldAt (Seq.runEnds 0 tc.times)
  | _ => True

variable {c s : Chunk} {env : Env} {k k' : Nat} {indices : List Nat}

theorem takenColumns_iff (hwf : c.WellFormed) (hindices : ∀ i ∈ indices, i < c.numRows)
    (hpath : s.entityPath = c.entityPath) (hids : s.rowIds = Seq.permute c.rowIds indices)
    (htimes : s.timelines = Assoc.map c.timelines fun _ tc => tc.taken indices)
    (hcells : ∀ component, (s.components.lookup component).map (·.listArray.cells) =
      (c.components.lookup component).map fun column => (column.listArray.take indices).cells) :
    (s.WellFormed ↔ s.isSorted = Seq.ascending s.rowIds ∧ c.TimeFlagsHoldAt indices) ∧
      (s.CachesHonest ↔ s.isSorted = Seq.ascending s.rowIds ∧ c.TimeFlagsHoldAt indices) := by
  have htakes := takesRows_of_taken hpath hids htimes hcells
  have hflags : s.isSorted = Seq.ascending s.rowIds ∧ c.TimeFlagsHoldAt indices → s.WellFormed := by
    intro ⟨hsorted, hhold⟩
    refine htakes.wf hwf hindices hsorted fun name tc' htc' => ?_
    rw [htimes, lookup_map] at htc'
    obtain ⟨tc, htc, rfl⟩ := map_eq_some_iff.mp htc'
    exact (TimeColumn.taken_wf_iff (hwf.times_wf _ _ htc) indices).mpr (hhold name tc htc)
  have hhonest : s.CachesHonest → s.isSorted = Seq.ascending s.rowIds ∧ c.TimeFlagsHoldAt indices := by
    intro h
    refine ⟨h.isSorted_eq, fun name tc htc => ?_⟩
    have htaken : s.timelines.lookup name = some (tc.taken indices) := by
      rw [htimes, lookup_map, htc, map_some]
    exact (h.times name _ htaken).isSorted_eq
  exact ⟨⟨fun h => hhonest h.cachesHonest, hflags⟩, ⟨hhonest, fun h => (hflags h).cachesHonest⟩⟩

theorem timeFlagsHoldAt_of_empty (hwf : c.WellFormed) (hempty : c.rowIds = []) (indices : List Nat) :
    c.TimeFlagsHoldAt indices := by
  intro name tc htc
  have hnil : tc.times = [] := by
    apply length_eq_zero_iff.mp
    rw [hwf.times_length _ _ htc, numRows, hempty]
    rfl
  rw [(hwf.times_wf _ _ htc).isSorted_eq, hnil]
  simp [Seq.permute, Seq.ascending]

theorem permute_nil (indices : List Nat) : Seq.permute ([] : List RowId) indices = [] := by
  simp [Seq.permute]

theorem iff_of_wf {P : Prop} (hs : s.WellFormed) (h : P) : (s.WellFormed ↔ P) ∧ (s.CachesHonest ↔ P) :=
  ⟨iff_of_true hs h, iff_of_true hs.cachesHonest h⟩

theorem taken_iff (hwf : c.WellFormed) (hindices : ∀ i ∈ indices, i < c.numRows) :
    ((c.taken env k indices).1.WellFormed ↔ KeepsCaches (c, k) (.taken indices)) ∧
      ((c.taken env k indices).1.CachesHonest ↔ KeepsCaches (c, k) (.taken indices)) := by
  unfold taken KeepsCaches
  by_cases hempty : c.isEmpty = true
  · rw [if_pos hempty]
    exact iff_of_wf hwf fun h => absurd (List.isEmpty_iff.mp hempty) h
  · rw [if_neg hempty]
    have hne : c.rowIds ≠ [] := fun h => hempty (List.isEmpty_iff.mpr h)
    by_cases hnone : indices.isEmpty = true
    · rw [if_pos hnone]
      have hwf' := emptied_wf c (env.newId k) (env.sizeBytes (env.newId k))
      exact iff_of_wf hwf' fun _ h => absurd (List.isEmpty_iff.mp hnone) h
    · rw [if_neg hnone]
      have hsome : indices ≠ [] := fun h => hnone (List.isEmpty_iff.mpr h)
      -- the flag of the chunk is set, or there is one row, or it is recomputed
      have hflag : (c.isSorted || decide (indices.length < 2) ||
          Seq.ascending (Seq.permute c.rowIds indices)) = Seq.ascending (Seq.permute c.rowIds indices) ↔
          (c.isSorted = true → Seq.ascending (Seq.permute c.rowIds indices) = true) := by
        have hshort : indices.length < 2 → Seq.ascending (Seq.permute c.rowIds indices) = true := by
          intro h
          apply ascending_of_length_lt_two
          rw [Seq.permute_length hindices]
          exact h
        cases hasc : Seq.ascending (Seq.permute c.rowIds indices) with
        | true => simp
        | false =>
          have hlong : ¬ indices.length < 2 := fun h => by
            rw [hshort h] at hasc
            cases hasc
          simp [hlong]
      obtain ⟨hiff, hiff'⟩ := takenColumns_iff (c := c) (s := (
        { id := env.newId k
          entityPath := c.entityPath
          sizeBytes := env.sizeBytes (env.newId k)
          isSorted := c.isSorted || decide (indices.length < 2) ||
            Seq.ascending (Seq.permute c.rowIds indices)
          rowIds := Seq.permute c.rowIds indices
          timelines := Assoc.map c.timelines fun _ tc => tc.taken indices
          components := Assoc.map c.components fun _ column =>
            { column with listArray := column.listArray.take indices } } : Chunk))
        hwf hindices rfl rfl rfl fun component => by
          rw [lookup_map, Option.map_map]
          rfl
      refine ⟨hiff.trans ?_, hiff'.trans ?_⟩
      all_goals exact ⟨fun h _ _ => ⟨hflag.mp h.1, h.2⟩, fun h => ⟨hflag.mpr (h hne hsome).1, (h hne hsome).2⟩⟩

theorem dedupedLatestOnIndex_iff (hwf : c.WellFormed) (index : TimelineName) :
    ((c.dedupedLatestOnIndex env k index).1.WellFormed ↔ KeepsCaches (c, k) (.dedupedLatestOnIndex index)) ∧
      ((c.dedupedLatestOnIndex env k index).1.CachesHonest ↔ KeepsCaches (c, k) (.dedupedLatestOnIndex index)) := by
  unfold dedupedLatestOnIndex KeepsCaches
  by_cases hempty : c.isEmpty = true
  · rw [if_pos hempty]
    have hnil : c.rowIds = [] := List.isEmpty_iff.mp hempty
    refine iff_of_wf hwf fun tc _ => ⟨?_, timeFlagsHoldAt_of_empty hwf hnil _⟩
    rw [hwf.isSorted_eq, hnil, permute_nil]
  · rw [if_neg hempty]
    dsimp only
    by_cases hstatic : c.isStatic = true
    · rw [if_pos hstatic]
      have hwf' := (rowSliced_wf hwf (env.newId k) (env.sizeBytes (env.newId k)) (c.numRows - 1) 1).2
      refine iff_of_wf hwf' fun tc htc => ?_
      have hne : c.timelines.entries ≠ [] := entries_ne_nil_iff.mpr ⟨index, by rw [htc]; rfl⟩
      exact absurd (List.isEmpty_iff.mp hstatic) hne
    · rw [if_neg hstatic]
      cases htc : c.timelines.lookup index with
      | none => exact iff_of_wf hwf fun tc h => by cases h
      | some tc =>
        have hindices : ∀ i ∈ Seq.runEnds 0 tc.times, i < c.numRows := by
          intro i hi
          have hmem := mem_range'_1.mp ((Seq.runEnds_sublist 0 tc.times).subset hi)
          rw [← hwf.times_length _ _ htc]
          omega
        simp only [some.injEq, forall_eq']
        exact takenColumns_iff (c := c) (s := (
          { id := env.newId k
            entityPath := c.entityPath
            sizeBytes := env.sizeBytes (env.newId k)
            isSorted := c.isSorted
            rowIds := Seq.permute c.rowIds (Seq.runEnds 0 tc.times)
            timelines := Assoc.map c.timelines fun _ tc' => tc'.taken (Seq.runEnds 0 tc.times)
            components := Assoc.map c.components fun _ column =>
              { column with listArray := column.listArray.take (Seq.runEnds 0 tc.times) } } : Chunk))
          hwf hindices rfl rfl rfl fun component => by
            rw [lookup_map, Option.map_map]
            rfl

/-! ## Runs -/

theorem splitPiece_wf (hwf : c.WellFormed) {cfg : ChunkSplitConfig} {piece : Chunk}
    (hpiece : piece ∈ (splitChunkIfNeeded env cfg k c).1) : piece.WellFormed := by
  by_cases hne : c.rowIds = []
  · have hrows : c.numRows ≤ 1 := by
      rw [numRows, hne]
      exact Nat.zero_le 1
    unfold splitChunkIfNeeded targetRows at hpiece
    rw [if_pos hrows] at hpiece
    rw [mem_singleton.mp hpiece]
    exact hwf
  · exact (splitChunkIfNeeded_pieceOf env cfg k hwf hne piece hpiece).wf

theorem concatAndSort_wf {l r m : Chunk} (h : l.concatAndSort env k r = .ok (m, k')) : m.WellFormed := by
  unfold concatAndSort at h
  split at h
  · cases h
  · dsimp only at h
    split at h
    · cases h
    · rename_i hsane
      have hm := congrArg fst (Except.ok.inj h)
      rw [show m = _ from hm.symm]
      exact sanityCheck_iff.mp hsane

theorem eq_ok_of_toOption {α ε : Type} {x : Except ε α} {a : α} (h : x.toOption = some a) : x = .ok a := by
  cases x with
  | error e => cases h
  | ok b => exact congrArg Except.ok (some.inj h)

theorem apply_iff (hwf : c.WellFormed) {op : Operation} (h : apply env (c, k) op = some (s, k')) :
    (s.WellFormed ↔ KeepsCaches (c, k) op) ∧ (s.CachesHonest ↔ KeepsCaches (c, k) op) := by
  have hright : s.WellFormed → (s.WellFormed ↔ True) ∧ (s.CachesHonest ↔ True) := fun hs => iff_of_wf hs trivial
  cases op with
  | rowSlicedDeep index len =>
    obtain rfl := congrArg fst (some.inj h)
    exact hright (rowSliced_wf hwf _ _ index len).1
  | rowSlicedShallow index len =>
    obtain rfl := congrArg fst (some.inj h)
    exact hright (rowSliced_wf hwf _ _ index len).2
  | filtered mask => exact hright (filtered_wf hwf h)
  | densified componentPov =>
    obtain rfl := congrArg fst (some.inj h)
    exact hright (densified_wf hwf componentPov)
  | taken indices =>
    simp only [apply] at h
    split at h
    · rename_i hindices
      obtain rfl := congrArg fst (some.inj h)
      exact taken_iff hwf hindices
    · cases h
  | dedupedLatestOnIndex index =>
    obtain rfl := congrArg fst (some.inj h)
    exact dedupedLatestOnIndex_iff hwf index
  | sortByRowIdsIfNeeded =>
    obtain rfl := congrArg fst (some.inj h)
    exact hright (sortByRowIdsIfNeeded_wf hwf).1
  | sortedByTimelineIfUnsorted timeline =>
    obtain rfl := congrArg fst (some.inj h)
    exact hright (sortedByTimelineIfUnsorted_wf hwf)
  | shuffled swaps =>
    simp only [apply] at h
    split at h
    · rename_i hswaps
      obtain rfl := congrArg fst (some.inj h)
      exact hright (shuffleWith_wf hwf hswaps _ _)
    · cases h
  | concatAndSort left other =>
    simp only [apply] at h
    split at h
    · exact hright (concatAndSort_wf (eq_ok_of_toOption h))
    · exact hright (concatAndSort_wf (eq_ok_of_toOption h))
  | splitPiece cfg n =>
    obtain ⟨piece, hpiece, heq⟩ := map_eq_some_iff.mp h
    obtain rfl := congrArg fst heq
    exact hright (splitPiece_wf hwf (mem_of_getElem? hpiece))

/-- From a chunk that passes its sanity check, every run whose takes and deduplications keep the
caches leads to a chunk with honest caches; and a single operation does so exactly if it keeps
them. -/
theorem runs_keep_caches (env : Env) (c : ValidChunk) (k : Nat) :
    (∀ ops s k', Runs.StepsMeet (apply env) KeepsCaches (c.toChunk, k) ops →
      Runs.run (apply env) (c.toChunk, k) ops = some (s, k') → s.CachesHonest) ∧
    ∀ op s k', apply env (c.toChunk, k) op = some (s, k') → (s.CachesHonest ↔ KeepsCaches (c.toChunk, k) op) := by
  refine ⟨fun ops s k' hmeets hrun => ?_, fun op s k' h => (apply_iff c.wf h).2⟩
  have hwf : s.WellFormed := by
    refine Runs.run_induction (P := fun st : Chunk × Nat => st.1.WellFormed) ?_ ops (c.toChunk, k) (s, k')
      c.wf hmeets hrun
    intro st op st' hst hkeeps hstep
    exact (apply_iff hst hstep).1.mpr hkeeps
  exact hwf.cachesHonest

theorem timeFlagsHoldAt_iff {c : Chunk} : c.TimeFlagsHoldAt indices ↔
    ∀ e ∈ Assoc.toList c.timelines, e.2.isSorted = Seq.ascending (Seq.permute e.2.times indices) :=
  ⟨fun h e he => h e.1 e.2 (mem_toList.mp he), fun h name tc htc => h (name, tc) (mem_toList.mpr htc)⟩

def repeatedChunk : ValidChunk where
  toChunk := ofColumns 1 ⟨["robot"]⟩ 0 [2, 1, 3, 4]
    [(⟨"frame"⟩, [5, 5, 6, 6].map I64.sat), (⟨"log"⟩, [8, 7, 3, 4].map I64.sat)]
    [(⟨"position"⟩, [some [], none, some [], some []])]
  sane := rfl

def repeatedRun : List Operation :=
  [.sortByRowIdsIfNeeded, .taken [1, 2, 3], .dedupedLatestOnIndex ⟨"frame"⟩, .filtered [true, true]]

/-- Sorted, taken in part, and deduplicated, it has honest caches. -/
theorem runs_keep_caches_repeated :
    ∃ s k', Runs.run (apply (.countingFrom 100)) (repeatedChunk.toChunk, 0) repeatedRun = some (s, k') ∧
      s.rowIds = [2, 4] ∧ s.CachesHonest := by
  have hmeets : Runs.StepsMeet (apply (.countingFrom 100)) KeepsCaches (repeatedChunk.toChunk, 0) repeatedRun := by
    refine ⟨trivial, fun sorted hsorted => ?_⟩
    obtain rfl := some.inj hsorted
    refine ⟨fun _ _ => ⟨by decide, timeFlagsHoldAt_iff.mpr (by decide)⟩, fun taken htaken => ?_⟩
    obtain rfl := some.inj htaken
    refine ⟨fun tc htc => ?_, fun _ _ => ⟨trivial, fun _ _ => trivial⟩⟩
    obtain rfl := some.inj htc
    exact ⟨by decide, timeFlagsHoldAt_iff.mpr (by decide)⟩
  obtain ⟨⟨s, k'⟩, hrun⟩ := isSome_iff_exists.mp (show (Runs.run (apply (.countingFrom 100))
    (repeatedChunk.toChunk, 0) repeatedRun).isSome = true by decide)
  have hids : ((Runs.run (apply (.countingFrom 100)) (repeatedChunk.toChunk, 0) repeatedRun).map
    fun s => s.1.rowIds) = some [2, 4] := by decide
  rw [hrun] at hids
  exact ⟨s, k', hrun, some.inj hids, (runs_keep_caches (.countingFrom 100) repeatedChunk 0).1 _ s k' hmeets hrun⟩
def orderedChunk : ValidChunk where
  toChunk := ofColumns 1 ⟨["robot"]⟩ 0 [1, 2] [(⟨"frame"⟩, [5, 6].map I64.sat)]
    [(⟨"position"⟩, [some [], some []])]
  sane := rfl

/-- Taking its two rows in reverse leaves both flags set, and the range of the times empty. -/
theorem taken_reversed : let s := (orderedChunk.toChunk.taken (.countingFrom 100) 0 [1, 0]).1
    s.isSorted = true ∧ s.rowIds = [2, 1] ∧ ¬ s.CachesHonest ∧
      ¬ (∀ env (c : ValidChunk) k ops s k', Runs.run (apply env) (c.toChunk, k) ops = some (s, k') →
        s.CachesHonest) := by
  have hsorted : (orderedChunk.toChunk.taken (.countingFrom 100) 0 [1, 0]).1.isSorted = true := by decide
  have hids : (orderedChunk.toChunk.taken (.countingFrom 100) 0 [1, 0]).1.rowIds = [2, 1] := by decide
  have hdishonest : ¬ (orderedChunk.toChunk.taken (.countingFrom 100) 0 [1, 0]).1.CachesHonest := by
    intro h
    have heq := h.isSorted_eq
    exact absurd heq (by decide)
  refine ⟨hsorted, hids, hdishonest, fun h => hdishonest ?_⟩
  exact h (.countingFrom 100) orderedChunk 0 [.taken [1, 0]] _ 1 rfl

end Chunk

end Dalaran
