import Dalaran.Query.RangeRows
import Dalaran.Store.Conservation

/-
  The rows that dropping a time range leaves (`drop_time_range.rs`).

  A chunk loses exactly its rows in the range: all of them, none, or those between
  two partition points of its times, and the slices around these have the others
  (`cutTimeRange_rows`). Each slice comes back as a new chunk with its rows
  (`insertChunk_rows`).

  A slice shares the child arrays of the chunk it was cut out of. Where its
  insertion compacts it with a neighbour that lacks one of its columns, the column
  is padded, and read from the start of the child array (`colorsStore_moves_cell`).
  `SlicesReadable` excludes it.

  Correspondence (Rust ↔ Lean):
    `drop_time_range_{shallow, deep}` ↔ `dropTimeRange`
    the rows it is to drop ↔ `Row.isIn`
-/

namespace Dalaran

open List Option Bool AbsoluteTimeRange Assoc Chunk

def Row.isIn (timeline : TimelineName) (range : AbsoluteTimeRange) (row : Row) : Bool :=
  (row.times timeline).any fun t => range.contains ⟨t⟩

theorem Row.isIn_of_empty {timeline : TimelineName} {range : AbsoluteTimeRange} (h : range.max < range.min)
    (row : Row) : row.isIn timeline range = false := by
  unfold Row.isIn
  cases row.times timeline with
  | none => rfl
  | some t =>
    apply eq_false_of_not_eq_true
    intro hin
    obtain ⟨hmin, hmax⟩ := contains_iff.mp hin
    exact absurd (hmin.trans hmax) (not_le.mpr h)

/-! ## Cutting a chunk -/

namespace Chunk

variable {c : Chunk} {env : Env} {k : Nat} {timeline : TimelineName} {dropRange : AbsoluteTimeRange}
  {tc : TimeColumn}

theorem isIn_eq_false_of_none (h : c.timelines.lookup timeline = none) :
    ∀ row ∈ c.rows, row.isIn timeline dropRange = false := by
  intro row hrow
  obtain ⟨i, hi, rfl⟩ := mem_mapIdx.mp hrow
  have htime : (c.rowAt i c.rowIds[i]).times timeline = none := by
    show (c.timelines.lookup timeline).bind _ = none
    rw [h]
    rfl
  unfold Row.isIn
  rw [htime]
  rfl

theorem exists_time_of_mem_rows (hwf : c.WellFormed) (htc : c.timelines.lookup timeline = some tc) :
    ∀ row ∈ c.rows, ∃ t, row.times timeline = some t ∧ tc.timeRange.min ≤ ⟨t⟩ ∧ ⟨t⟩ ≤ tc.timeRange.max := by
  intro row hrow
  have hmem : row.times timeline ∈ tc.times.map some :=
    rows_map_times hwf htc ▸ List.mem_map_of_mem hrow
  obtain ⟨t, ht, heq⟩ := List.mem_map.mp hmem
  have hcolumn := hwf.times_wf _ _ htc
  exact ⟨t, heq.symm, hcolumn.min_le t ht, hcolumn.le_max t ht⟩

theorem take_append_drop_perm {p : Row → Bool} {l : List Row} {lo hi : Nat} (hle : lo ≤ hi)
    (hmiddle : (l.drop lo).take (hi - lo) = l.filter p) :
    (l.take lo ++ l.drop hi).Perm (l.filter fun row => !p row) := by
  have hdrop : (l.drop lo).drop (hi - lo) = l.drop hi := by
    rw [drop_drop]
    congr 1
    omega
  have hsplit : l.take lo ++ (l.filter p ++ l.drop hi) = l := by
    rw [← hmiddle, ← hdrop, take_append_drop, take_append_drop]
  have hfilter : (l.filter p ++ l.filter fun row => !p row).Perm l := by
    simpa using filter_append_perm p l
  have hall : (l.filter p ++ (l.take lo ++ l.drop hi)).Perm (l.filter p ++ l.filter fun row => !p row) := by
    refine .trans ?_ hfilter.symm
    conv => rhs; rw [← hsplit]
    exact perm_append_comm_assoc _ _ _
  exact (perm_append_left_iff _).mp hall

theorem cutTimeRange_rows (hwf : c.WellFormed) :
    ((c.cutTimeRange env timeline dropRange k).1 = false →
      (c.cutTimeRange env timeline dropRange k).2.1 = [] ∧ ∀ row ∈ c.rows, row.isIn timeline dropRange = false) ∧
    ((c.cutTimeRange env timeline dropRange k).1 = true →
      ((c.cutTimeRange env timeline dropRange k).2.1.flatMap Chunk.rows).Perm
        (c.rows.filter fun row => !row.isIn timeline dropRange)) := by
  unfold cutTimeRange
  cases htc : c.timelines.lookup timeline with
  | none => exact ⟨fun _ => ⟨rfl, isIn_eq_false_of_none htc⟩, nofun⟩
  | some tc =>
    have htimes := exists_time_of_mem_rows hwf htc
    dsimp only
    split
    · -- the range contains that of the chunk
      rename_i hcontains
      obtain ⟨hmin, hmax⟩ := Bool.and_eq_true_iff.mp hcontains
      refine ⟨nofun, fun _ => Perm.of_eq ?_⟩
      refine (filter_eq_nil_iff.mpr fun row hrow => ?_).symm
      obtain ⟨t, ht, hlo, hhi⟩ := htimes row hrow
      have hin : row.isIn timeline dropRange = true := by
        unfold Row.isIn
        rw [ht, any_some, contains_iff]
        exact ⟨(of_decide_eq_true hmin).trans hlo, hhi.trans (of_decide_eq_true hmax)⟩
      simp [hin]
    · split
      · -- the two do not meet
        rename_i hapart
        refine ⟨fun _ => ⟨rfl, fun row hrow => ?_⟩, nofun⟩
        obtain ⟨t, ht, hlo, hhi⟩ := htimes row hrow
        unfold Row.isIn
        rw [ht, any_some]
        apply eq_false_of_not_eq_true
        intro hin
        obtain ⟨hmin, hmax⟩ := contains_iff.mp hin
        have hmeet : dropRange.intersects tc.timeRange = true :=
          intersects_iff.mpr ⟨hmin.trans hhi, hlo.trans hmax⟩
        simp [hmeet] at hapart
      · -- they meet, so the rows are put in order
        obtain ⟨hsorted, hperm, htl, horder, -⟩ := sortedByTimelineIfUnsorted_spec env k hwf htc rfl
        generalize c.sortedByTimelineIfUnsorted env k timeline = sorted at hsorted hperm htl horder ⊢
        obtain ⟨stc, hstc⟩ := isSome_iff_exists.mp htl
        rw [hstc, elim_some]
        have hmiddle := rowSliced_between hsorted hstc ((pairwise_notLater_iff hsorted hstc).mp horder)
          dropRange.min.asI64 dropRange.max.asI64 0 0
        rw [rowSlicedShallow_rows hsorted] at hmiddle
        change _ = sorted.1.rows.filter (Row.isIn timeline dropRange) at hmiddle
        generalize (stc.times.takeWhile fun t => decide (t < dropRange.min.asI64)).length = lo at hmiddle ⊢
        generalize hhi : (stc.times.takeWhile fun t => decide (t ≤ dropRange.max.asI64)).length = hi at hmiddle ⊢
        split
        · rename_i hlt
          refine ⟨nofun, fun _ => ?_⟩
          have hbefore : ∀ id size, (if 0 < lo then [sorted.1.rowSlicedShallow id size 0 lo] else []).flatMap rows =
              sorted.1.rows.take lo := by
            intro id size
            split
            · rw [flatMap_singleton, rowSlicedShallow_rows hsorted, drop_zero]
            · rename_i hzero
              rw [Nat.eq_zero_of_not_pos hzero, take_zero]
              rfl
          have hafter : ∀ id size, (if hi < sorted.1.numRows then [sorted.1.rowSlicedShallow id size hi
              (sorted.1.numRows - hi)] else []).flatMap rows = sorted.1.rows.drop hi := by
            intro id size
            split
            · rw [flatMap_singleton, rowSlicedShallow_rows hsorted]
              refine take_of_length_le ?_
              rw [length_drop, rows_length]
            · rw [drop_eq_nil_of_le (by rw [rows_length]; omega)]
              rfl
          rw [flatMap_append, apply_ite Prod.fst, apply_ite Prod.fst, hbefore, hafter]
          exact (take_append_drop_perm hlt.le hmiddle).trans (hperm.filter _)
        · rename_i hge
          refine ⟨fun _ => ⟨rfl, fun row hrow => ?_⟩, nofun⟩
          rw [Nat.sub_eq_zero_of_le (Nat.le_of_not_lt hge), take_zero] at hmiddle
          have hnone := filter_eq_nil_iff.mp hmiddle.symm row (hperm.mem_iff.mpr hrow)
          exact eq_false_of_not_eq_true hnone

theorem cutTimeRange_kept (hwf : c.WellFormed) :
    ∀ p ∈ (c.cutTimeRange env timeline dropRange k).2.1, p.rowIds ≠ [] ∧ p.isStatic = false := by
  intro p hp
  obtain ⟨htl, id, size, index, len, hpos, hle, rfl⟩ := cutTimeRange_slices hwf dropRange p hp
  obtain ⟨tc, htc⟩ := isSome_iff_exists.mp htl
  obtain ⟨hsorted, -, hstl, -⟩ := sortedByTimelineIfUnsorted_spec env k hwf htc rfl
  have htakes := rowSlicedShallow_takesRows hsorted hpos hle id size
  generalize (c.sortedByTimelineIfUnsorted env k timeline).1 = sorted at *
  refine ⟨?_, ?_⟩
  · intro hnil
    have hlen := congrArg List.length (htakes.rowIds.symm.trans hnil)
    rw [Seq.permute_length (fun i hi => ?_), length_range', length_nil] at hlen
    · omega
    · have := (mem_range'_1.mp hi).2
      exact this.trans_le hle
  · apply eq_false_of_not_eq_true
    intro hstatic
    have htimes := congrArg Option.isSome (htakes.times timeline)
    rw [isSome_map, isSome_map, hstl] at htimes
    exact entries_ne_nil_iff.mpr ⟨timeline, htimes⟩ (List.isEmpty_iff.mp hstatic)

end Chunk

namespace ChunkStore

open Catalog

variable {st st' : ChunkStore} {c : Chunk} {cs : List Chunk} {env : Env} {insertEnv : Nat → Env}
  {timeline : TimelineName} {dropRange : AbsoluteTimeRange}

/-! ## The plan -/

theorem planDrop_rows : ∀ {chunks : List Chunk} {k : Nat}, (∀ c ∈ chunks, c.WellFormed) →
    ∃ kept, chunks.Perm ((planDrop env timeline dropRange k chunks).1 ++ kept) ∧
      (chunks.flatMap Chunk.rows |>.filter fun row => !row.isIn timeline dropRange).Perm
        ((planDrop env timeline dropRange k chunks).2.1.flatMap Chunk.rows ++ kept.flatMap Chunk.rows)
  | [], _, _ => ⟨[], .refl _, .refl _⟩
  | c :: chunks, k, h => by
    obtain ⟨kept, hperm, hrows⟩ := @planDrop_rows chunks (c.cutTimeRange env timeline dropRange k).2.2
      fun d hd => h d (mem_cons_of_mem _ hd)
    obtain ⟨hkept, hcut⟩ := @Chunk.cutTimeRange_rows c env k timeline dropRange (h c mem_cons_self)
    unfold planDrop
    dsimp only
    rw [flatMap_cons, filter_append, flatMap_append]
    cases hbit : (c.cutTimeRange env timeline dropRange k).1 with
    | false =>
      obtain ⟨hnil, houtside⟩ := hkept hbit
      refine ⟨c :: kept, ?_, ?_⟩
      · rw [if_neg Bool.false_ne_true]
        exact (hperm.cons c).trans perm_middle.symm
      · rw [hnil, flatMap_nil, nil_append, flatMap_cons,
          filter_eq_self.mpr fun row hrow => by simp [houtside row hrow]]
        exact (hrows.append_left _).trans (perm_append_comm_assoc _ _ _)
    | true =>
      refine ⟨kept, ?_, ?_⟩
      · rw [if_pos rfl]
        exact hperm.cons c
      · rw [append_assoc]
        exact (hcut hbit).symm.append hrows

theorem planDrop_kept : ∀ {chunks : List Chunk} {k : Nat}, (∀ c ∈ chunks, c.Sound) →
    ∀ p ∈ (planDrop env timeline dropRange k chunks).2.1, p.rowIds ≠ [] ∧ p.isStatic = false
  | [], _, _, _, hp => absurd hp not_mem_nil
  | c :: chunks, k, h, p, hp => by
    unfold planDrop at hp
    dsimp only at hp
    rcases mem_append.mp hp with hp | hp
    · exact cutTimeRange_kept (h c mem_cons_self).wf p hp
    · exact planDrop_kept (fun d hd => h d (mem_cons_of_mem _ hd)) p hp

/-! ## Removals -/

theorem removeEach_evicts (deepRemoval : Bool) (reason : ChunkDeletionReason) {chunks : List Chunk}
    {st : ChunkStore} (hv : st.catalog.Sound) (hchunks : ∀ c ∈ chunks, st.physical c.id = some c)
    (hnodup : (chunks.map (·.id)).Nodup) :
    (removeEach deepRemoval reason st chunks).1.catalog.Sound ∧
      Evicts st chunks (removeEach deepRemoval reason st chunks).1 := by
  induction chunks generalizing st with
  | nil => exact ⟨hv, .of_eq rfl⟩
  | cons c chunks ih =>
    obtain ⟨removed, hremoved, hremoves, -, hrest, heq⟩ := removeEach_cons deepRemoval reason hv hchunks hnodup
    have hevicts : Evicts st [c] removed.1 := by
      rcases hremoved with rfl | rfl
      all_goals exact removeChunksDeep_single_evicts (hchunks c mem_cons_self) reason
    obtain ⟨hsound, hevicts'⟩ := ih (hv.removes hremoves.removes) hrest (nodup_cons.mp hnodup).2
    rw [heq]
    exact ⟨hsound, hevicts.trans hevicts'⟩

/-! ## Insertions -/

theorem insertChunk_rows {c : ValidChunk} (hv : st.catalog.Sound) (hfresh : Fresh env st c.toChunk)
    (hunused : ¬ st.Mentions c.id) (hstatic : c.isStatic = false) (hacc : st.Accepts c.toChunk)
    (hcells : (Op.insertChunk env c).KeepsCells st) :
    (insertChunk env st c.toChunk).1.physicalRows.Perm (c.rows ++ st.physicalRows) := by
  obtain ⟨-, habsent, -⟩ := sound_of_earlyReturn c.wf hacc.2
  -- there is nothing to clean up for a new id
  have hsame : st.cleanUp c.toChunk = (st, []) := cleanUp_of_available (.of_not_mentions hunused)
  have hphysical : (st.prepared c.toChunk).physicalChunksPerChunkId = st.physicalChunksPerChunkId := by
    show (st.cleanUp c.toChunk).1.physicalChunksPerChunkId = _
    rw [hsame]
  have hprepared : (st.prepared c.toChunk).physicalRows = st.physicalRows :=
    congrArg (fun chunks => (Assoc.values chunks).flatMap Chunk.rows) hphysical
  have hav := available_prepared hv habsent hfresh
  obtain ⟨hins, -⟩ := insertChunk_cases hv c.wf hfresh hacc
  generalize (insertChunk env st c.toChunk).1 = st' at hins
  rw [← hprepared]
  cases hins with
  | pieces _ hsplit _ =>
    rw [← hsplit.rows]
    refine @foldl_storePiece_rows ((st.prepared c.toChunk).recordSplit c.toChunk _) _ _ _ (fun p hp => ?_)
      hsplit.ids.nodup
    obtain ⟨j, -, -, hid⟩ := hsplit.ids.mem p hp
    rw [hid]
    exact (hav j).physical
  | static hs =>
    rw [hstatic] at hs
    cases hs
  | temporal _ _ => exact physicalRows_of_stored ((congrArg (AList.lookup c.id) hphysical).trans habsent) rfl
  | @merged elected m _ _ helected hne _ hpiece hid hmerge _ hwhole helect =>
    obtain ⟨j, hj⟩ := hid
    obtain ⟨hjoins, helectedCells, hownCells⟩ := hcells hacc hstatic hwhole elected helect
    refine recordCompaction_rows helected ?_ (hmerge.rows hjoins helectedCells hownCells)
    rw [hj]
    exact (hav j).physical

theorem keepsCells_of_packed {c : ValidChunk} {bound : Nat} (hc : c.Packed)
    (h : ∀ d ∈ Assoc.values (st.prepared c.toChunk).physicalChunksPerChunkId, d.Packed) :
    (Op.insertChunk (.countingFrom bound) c).KeepsCells st := by
  intro _ _ _ elected helected
  obtain ⟨id, hid, -⟩ := findAndElectCompactionCandidate_spec helected
  exact ⟨joinsColumns_countingFrom _ _ _, (h elected (mem_values.mpr ⟨id, hid⟩)).paddableNextTo _,
    hc.paddableNextTo _⟩

/-- What comes back has columns, and it is compacted without losing a column, with columns that can be
padded only. -/
def SlicesReadable (env : Env) (insertEnv : Nat → Env) : Nat → Nat → ChunkStore → List Chunk → Prop
  | _, _, _, [] => True
  | n, k, st, c :: chunks =>
    c.hasColumns = true ∧ (∀ sane, (Op.insertChunk (insertEnv n) ⟨(c.sortByRowIdsIfNeeded env k).1, sane⟩).KeepsCells st) ∧
      SlicesReadable env insertEnv (n + 1) (c.sortByRowIdsIfNeeded env k).2
        (insertChunk (insertEnv n) st (c.sortByRowIdsIfNeeded env k).1).1 chunks

theorem sortByRowIdsIfNeeded_kept {k : Nat} (hwf : c.WellFormed) (hkept : isKept c = true)
    (hstatic : c.isStatic = false) :
    isKept (c.sortByRowIdsIfNeeded env k).1 = true ∧ (c.sortByRowIdsIfNeeded env k).1.isStatic = false ∧
      (c.sortByRowIdsIfNeeded env k).1.rows.Perm c.rows := by
  have hreordered := (sortByRowIdsIfNeeded_right env k hwf).1
  generalize (c.sortByRowIdsIfNeeded env k).1 = sorted at hreordered ⊢
  obtain ⟨hrows, hcolumns⟩ := isKept_iff.mp hkept
  refine ⟨isKept_iff.mpr ⟨fun hnil => ?_, ?_⟩, ?_, hreordered.rows⟩
  · have hlen := hreordered.rows.length_eq
    rw [rows_length, rows_length] at hlen
    exact hrows (length_eq_zero_iff.mp (hlen.symm.trans (congrArg List.length hnil)))
  · obtain ⟨component, hcomponent⟩ := entries_ne_nil_iff.mp hcolumns
    refine entries_ne_nil_iff.mpr ⟨component, ?_⟩
    have hsame := congrArg Option.isSome (hreordered.components component)
    rw [isSome_map, isSome_map] at hsame
    exact hsame.trans hcomponent
  · apply eq_false_of_not_eq_true
    intro hs
    have hne : c.timelines.entries ≠ [] := fun hnil => by
      unfold Chunk.isStatic at hstatic
      rw [hnil] at hstatic
      cases hstatic
    obtain ⟨name, hname⟩ := entries_ne_nil_iff.mp hne
    have hsame := congrArg Option.isSome (hreordered.timelines name)
    rw [isSome_map, isSome_map] at hsame
    exact entries_ne_nil_iff.mpr ⟨name, hsame.trans hname⟩ (List.isEmpty_iff.mp hs)

theorem insertSlices_rows : ∀ {chunks : List Chunk} {n k : Nat} {st : ChunkStore}, st.catalog.Sound →
    (∀ c ∈ chunks, c.WellFormed ∧ c.rowIds ≠ [] ∧ c.isStatic = false) →
    SlicesNew env insertEnv n k st chunks → SlicesReadable env insertEnv n k st chunks →
      (insertSlices env insertEnv n k st chunks).1.physicalRows.Perm
        (chunks.flatMap Chunk.rows ++ st.physicalRows)
  | [], _, _, _, _, _, _, _ => .refl _
  | c :: chunks, n, k, st, hv, hchunks, ⟨hnew, hfresh, hrest⟩, ⟨hcolumns, hcells, hreadable⟩ => by
    obtain ⟨hwf, hrows, hstatic⟩ := hchunks c mem_cons_self
    have hkept : isKept c = true := by simp [isKept, Chunk.isEmpty, hrows, hcolumns]
    obtain ⟨hsortedWf, hsorted⟩ := @Chunk.sortByRowIdsIfNeeded_wf c env k hwf
    obtain ⟨hkept', hstatic', hperm⟩ := @sortByRowIdsIfNeeded_kept c env k hwf hkept hstatic
    have hsane := sanityCheck_iff.mpr hsortedWf
    have hacc := accepts_of_unused hsortedWf hsorted hkept' hnew
    have hone := @insertChunk_rows st (insertEnv n) ⟨_, hsane⟩ hv hfresh hnew hstatic' hacc (hcells hsane)
    have hsound := @insertChunk_sound st (insertEnv n) ⟨_, hsane⟩ hv hfresh
    obtain ⟨-, diffs, hok⟩ := insertChunk_cases hv hsortedWf hfresh hacc
    have hmore := @insertSlices_rows chunks (n + 1) (c.sortByRowIdsIfNeeded env k).2 _ hsound
      (fun d hd => hchunks d (mem_cons_of_mem _ hd)) hrest hreadable
    rw [insertSlices_cons hok, flatMap_cons, append_assoc]
    refine hmore.trans ((hone.append_left _).trans ((perm_append_comm_assoc _ _ _).trans ?_))
    exact hperm.append_right _

/-! ## Dropping -/

theorem dropTimeRange_rows (hv : st.catalog.Sound) {deepRemoval : Bool} {reason : ChunkDeletionReason}
    (hnew : SlicesNew env insertEnv 0 (dropPlan env st timeline dropRange).2.2
      (removeEach deepRemoval reason st (dropPlan env st timeline dropRange).1).1
      (dropPlan env st timeline dropRange).2.1)
    (hreadable : SlicesReadable env insertEnv 0 (dropPlan env st timeline dropRange).2.2
      (removeEach deepRemoval reason st (dropPlan env st timeline dropRange).1).1
      (dropPlan env st timeline dropRange).2.1) :
    (dropTimeRange env insertEnv st timeline dropRange deepRemoval reason).1.physicalRows.Perm
      (st.physicalRows.filter fun row => !row.isIn timeline dropRange) := by
  obtain ⟨hphysical, hnodup, hslices⟩ := dropPlan_spec hv env timeline dropRange
  obtain ⟨hsound, hevicts⟩ := removeEach_evicts deepRemoval reason hv hphysical hnodup
  have hchunks : (((Assoc.toList st.physicalChunksPerChunkId).insertionSort
      fun a b => a.1 ≤ b.1).map (·.2)).Perm st.physicalChunks := by
    refine ((perm_insertionSort _ _).map _).trans (.of_eq ?_)
    unfold Assoc.toList physicalChunks Assoc.values
    rw [List.map_map]
    rfl
  unfold dropTimeRange
  unfold dropPlan at *
  generalize ((Assoc.toList st.physicalChunksPerChunkId).insertionSort
    fun a b => a.1 ≤ b.1).map (·.2) = chunks at *
  have hall : ∀ c ∈ chunks, c.Sound := by
    intro c hc
    obtain ⟨id, hid⟩ := mem_values.mp (hchunks.mem_iff.mp hc)
    exact hv.chunk id c hid
  split
  · -- nothing is in an empty range
    rename_i hempty
    refine Perm.of_eq (filter_eq_self.mpr fun row _ => ?_).symm
    rw [Row.isIn_of_empty hempty]
    rfl
  · obtain ⟨kept, hsplit, hrows⟩ := @planDrop_rows env timeline dropRange chunks 0 fun c hc => (hall c hc).wf
    have hkept := @planDrop_kept env timeline dropRange chunks 0 hall
    have hinserted := insertSlices_rows hsound (fun p hp => ⟨hslices p hp, hkept p hp⟩) hnew hreadable
    generalize planDrop env timeline dropRange 0 chunks = plan at *
    have hbefore := hchunks.flatMap_right Chunk.rows
    -- what is left after the removals are the chunks that are not cut
    have hleft : (removeEach deepRemoval reason st plan.1).1.physicalRows.Perm (kept.flatMap Chunk.rows) := by
      refine (perm_append_left_iff (plan.1.flatMap Chunk.rows)).mp ?_
      rw [← flatMap_append]
      exact hevicts.rows.symm.trans (hbefore.symm.trans (hsplit.flatMap_right Chunk.rows))
    exact hinserted.trans ((hleft.append_left _).trans (hrows.symm.trans (hbefore.filter _)))

def twoColors : ValidChunk where
  toChunk := .ofColumns 1 ⟨["robot"]⟩ 0 [1, 2] [(⟨"frame"⟩, [0, 1].map I64.sat)]
    [(⟨"position"⟩, [some [], some []]), (⟨"color"⟩, [some [[1]], some [[2]]])]
  sane := rfl

def noColor : ValidChunk where
  toChunk := .ofColumns 2 ⟨["robot"]⟩ 0 [3] [(⟨"frame"⟩, [I64.sat 2])] [(⟨"position"⟩, [some []])]
  sane := rfl

def colorsStore : ChunkStore :=
  ((Call.insertChunk (.countingFrom 200) noColor).run
    ((Call.insertChunk (.countingFrom 100) twoColors).run (.new ⟨9, 2, 2⟩)).1).1

theorem eventRun_colorsStore : ∃ diffs, EventRun (fun _ _ => True) colorsStore diffs := by
  have hfirst : (Call.insertChunk (.countingFrom 100) twoColors).Possible (.new ⟨9, 2, 2⟩) :=
    fresh_countingFrom
  have hsecond : (Call.insertChunk (.countingFrom 200) noColor).Possible
      ((Call.insertChunk (.countingFrom 100) twoColors).run (.new ⟨9, 2, 2⟩)).1 :=
    fresh_countingFrom
  exact ⟨_, .step (.step (.new _) hfirst trivial) hsecond trivial⟩

def dropFrame (frame : Int) : Call :=
  .dropTimeRange (.countingFrom 300) (fun n => .countingFrom (400 + 100 * n)) ⟨"frame"⟩
    ⟨⟨I64.sat frame⟩, ⟨I64.sat frame⟩⟩ false .explicitDrop

theorem dropFrame_possible (frame : Int) (h : frame = 0 ∨ frame = 1) : (dropFrame frame).Possible colorsStore := by
  have hunused : ∀ {st : ChunkStore} {x : ChunkId}, x ∉ st.mentionedIds → ¬ st.Mentions x := fun hx h =>
    hx h.mem
  rcases h with rfl | rfl
  · exact ⟨hunused (by decide), fresh_countingFrom, trivial⟩
  · exact ⟨hunused (by decide), fresh_countingFrom, trivial⟩

end ChunkStore

end Dalaran
