import Dalaran.Base.Cuts
import Dalaran.Batcher.Lossless

/-
  How large a chunk with a timeline out of order gets.

  The batcher looks for timelines out of order before it pushes a row. Rows that are
  in order are collected without a limit, and the row that breaks the order comes
  out in one chunk with all of them. So the limit that the documentation of
  `many_into_chunks` names holds exactly if every block of as many rows is out of
  order itself, as long as there is something out of order from its start on
  (`unsortedBounded_iff`).
-/

namespace Dalaran

open List

namespace PendingRow

variable {T : Traversal} {n : Nat} {entityPath : EntityPath} {max : UInt64} {rows : List PendingRow}

/-! ## Runs as parts -/

theorem timesOn_sublist {name : TimelineName} {rows rows' : List PendingRow} (h : rows.Sublist rows') :
    (timesOn name rows).Sublist (timesOn name rows') :=
  h.filterMap _

theorem outOfOrder_spreads (names : List TimelineName) : Seq.Spreads (outOfOrder names) where
  infix_ := by
    intro rows rows' h hbad
    obtain ⟨name, hname, hdesc⟩ := any_eq_true.mp hbad
    apply any_eq_true.mpr
    refine ⟨name, hname, ?_⟩
    rw [Bool.not_eq_true', Bool.eq_false_iff] at hdesc ⊢
    intro hasc
    apply hdesc
    exact Seq.ascending_iff.mpr ((Seq.ascending_iff.mp hasc).sublist (timesOn_sublist h.sublist))
  length := by
    intro rows hbad
    obtain ⟨name, -, hdesc⟩ := any_eq_true.mp hbad
    by_contra hshort
    have hlength : (timesOn name rows).length ≤ rows.length := length_filterMap_le _ rows
    rw [Bool.not_eq_true', Bool.eq_false_iff] at hdesc
    apply hdesc
    match htimes : timesOn name rows, hlength with
    | [], _ => rfl
    | [_], _ => rfl
    | _ :: _ :: _, hlength =>
      simp only [length_cons] at hlength
      omega

variable {run : List PendingRow}

theorem runs_eq_cuts {names : List TimelineName} (h : ∀ row ∈ rows, row.timepoint.timelineNames = names) :
    runs max run rows = Seq.cuts max.toNat (outOfOrder names) run rows := by
  induction rows generalizing run with
  | nil => rfl
  | cons row rows ih =>
    have hrows := fun row' hrow' => h row' (mem_cons_of_mem row hrow')
    rw [runs, Seq.cuts, h row mem_cons_self, ih hrows, ih hrows]

/-! ## Chunks -/

/-- A chunk with a timeline out of order has no more rows than the limit. -/
def UnsortedBounded (max : UInt64) (chunk : Chunk) : Prop :=
  chunk.allTimelinesSorted = false → chunk.numRows ≤ max.toNat

theorem allTimelinesSorted_iff {all : PendingComponents} {first : PendingRow} {chunk : Chunk}
    (h : PendingColumns.IsChunkOf T.concatFails entityPath all first run chunk) :
    chunk.allTimelinesSorted = false ↔ outOfOrder first.timepoint.timelineNames run = true := by
  have hcolumn : ∀ {name : TimelineName} {cell : TimeCell}, first.timepoint.cells.lookup name = some cell →
      (PendingTimeColumn.ofTimes ⟨name, cell.typ⟩ (timesOn name run)).finish.isSorted =
        Seq.ascending (timesOn name run) :=
    fun _ => PendingTimeColumn.ofTimes_isSorted _ (timesOn_temporal _ run)
  rw [Chunk.allTimelinesSorted, all_eq_false, outOfOrder, any_eq_true]
  constructor
  · intro h'
    obtain ⟨tc, hmem, hdesc⟩ := h'
    obtain ⟨name, hlookup⟩ := Assoc.mem_values.mp hmem
    rw [h.timelines] at hlookup
    obtain ⟨cell, hcell, rfl⟩ := Option.map_eq_some_iff.mp hlookup
    rw [hcolumn hcell] at hdesc
    refine ⟨name, AList.mem_keys.mp (AList.lookup_isSome.mp (Option.isSome_of_eq_some hcell)), ?_⟩
    rwa [Bool.not_eq_true', Bool.eq_false_iff]
  · intro h'
    obtain ⟨name, hname, hdesc⟩ := h'
    obtain ⟨cell, hcell⟩ := Option.isSome_iff_exists.mp (AList.lookup_isSome.mpr (AList.mem_keys.mpr hname))
    refine ⟨(PendingTimeColumn.ofTimes ⟨name, cell.typ⟩ (timesOn name run)).finish, ?_, ?_⟩
    · apply Assoc.mem_values.mpr
      exact ⟨name, by rw [h.timelines, hcell]; rfl⟩
    · rw [hcolumn hcell]
      rwa [Bool.not_eq_true', Bool.eq_false_iff] at hdesc

theorem forall₂_forall_iff {α β : Type} {R : α → β → Prop} {p : α → Prop} {q : β → Prop} {l : List α} {l' : List β}
    (h : Forall₂ R l l') (hpq : ∀ a b, a ∈ l → b ∈ l' → R a b → (p a ↔ q b)) :
    (∀ a ∈ l, p a) ↔ ∀ b ∈ l', q b := by
  induction h with
  | nil => simp
  | @cons a b l l' hab hrest ih =>
    rw [forall_mem_cons, forall_mem_cons, hpq a b mem_cons_self mem_cons_self hab,
      ih fun a' b' ha' hb' => hpq a' b' (mem_cons_of_mem a ha') (mem_cons_of_mem b hb')]

theorem forall₂_comp {α β γ : Type} {R : α → β → Prop} {S : β → γ → Prop} {l : List α} {m : List β} {k : List γ}
    (h : Forall₂ R l m) (h' : Forall₂ S m k) : Forall₂ (fun a c => ∃ b, R a b ∧ S b c) l k := by
  induction h generalizing k with
  | nil =>
    cases h'
    exact .nil
  | @cons a b l m hab hrest ih =>
    obtain ⟨c, k', hbc, hmk, rfl⟩ := forall₂_cons_left_iff.mp h'
    exact .cons ⟨b, hab, hbc⟩ (ih hmk)

theorem unsortedBounded_of_run {columns : PendingColumns} {id : ChunkId} {result : Except ChunkError Chunk}
    (hof : OfRun columns run) (hresult : columns.intoChunk T id entityPath = .ok result) {names : List TimelineName}
    (hnames : ∀ row ∈ run, row.timepoint.timelineNames = names) :
    (∀ chunk, result = .ok chunk → UnsortedBounded max chunk) ↔ (outOfOrder names run = true → run.length ≤ max.toNat) := by
  obtain ⟨all, first, hcolumns⟩ := hof
  obtain ⟨chunk, rfl, hchunk⟩ := hcolumns.isChunkOf hresult
  have hfirst : first.timepoint.timelineNames = names := hnames first (mem_of_mem_head? hcolumns.head)
  have hrows : chunk.numRows = run.length := by rw [Chunk.numRows, hchunk.rowIds, length_map]
  have hsorted := allTimelinesSorted_iff hchunk
  rw [hfirst] at hsorted
  rw [← hrows, ← hsorted]
  constructor
  · intro h
    exact h chunk rfl
  · intro h chunk' heq
    cases heq
    exact h

theorem peers_names {row r : PendingRow} (h : r ∈ peers rows row) :
    r.timepoint.timelineNames = row.timepoint.timelineNames := by
  obtain ⟨-, hkey⟩ := mem_filter.mp h
  rw [Bool.and_eq_true] at hkey
  exact of_decide_eq_true hkey.1

theorem mem_of_mem_run {r : PendingRow} (hrun : run ∈ runs max [] rows) (hr : r ∈ run) : r ∈ rows := by
  have hflatten := runs_flatten max rows []
  rw [nil_append] at hflatten
  rw [← hflatten]
  exact mem_flatten.mpr ⟨run, hrun, hr⟩

/-! ## The limit -/

/-- Chunks with a timeline out of order have no more rows than the limit exactly if every block of as many
rows of a group is out of order itself, as long as there is something out of order from its start on. -/
theorem unsortedBounded_iff (T : Traversal) (n : Nat) (entityPath : EntityPath) (chunkMaxRowsIfUnsorted : UInt64)
    (rows : List PendingRow) (hfree : T.CollisionFree rows) {results : List (Except ChunkError Chunk)}
    (hresults : manyIntoChunks T n entityPath chunkMaxRowsIfUnsorted rows = .ok results) :
    (∀ chunk, .ok chunk ∈ results → UnsortedBounded chunkMaxRowsIfUnsorted chunk) ↔
      ∀ row ∈ rows, Seq.BlocksBad chunkMaxRowsIfUnsorted.toNat (outOfOrder row.timepoint.timelineNames)
        (peers rows row) := by
  have hmade := forall₂_comp (Collect.mapM_ok_iff.mp hresults).flip
    (@manyIntoChunks_forall₂ T chunkMaxRowsIfUnsorted rows hfree n)
  have hswap : (∀ chunk, .ok chunk ∈ results → UnsortedBounded chunkMaxRowsIfUnsorted chunk) ↔
      ∀ result ∈ results, ∀ chunk, result = .ok chunk → UnsortedBounded chunkMaxRowsIfUnsorted chunk := by
    constructor
    · intro h result hresult chunk heq
      exact h chunk (heq ▸ hresult)
    · intro h chunk hchunk
      exact h _ hchunk chunk rfl
  rw [hswap, forall₂_forall_iff (q := fun run => ∀ row ∈ rows, run ∈ runs chunkMaxRowsIfUnsorted [] (peers rows row) →
    outOfOrder row.timepoint.timelineNames run = true → run.length ≤ chunkMaxRowsIfUnsorted.toNat) hmade]
  · constructor
    · intro h row hrow
      rw [← Seq.cuts_bounded_iff (outOfOrder_spreads _), ← runs_eq_cuts fun r hr => peers_names hr]
      intro run hrun
      exact h run ((mem_batches hfree).mpr ⟨row, hrow, hrun⟩) row hrow hrun
    · intro h run _ row hrow hrun
      have hblocks := h row hrow
      rw [← Seq.cuts_bounded_iff (outOfOrder_spreads _), ← runs_eq_cuts fun r hr => peers_names hr] at hblocks
      exact hblocks run hrun
  · intro result run _ hrun h'
    obtain ⟨columns, hcolumns, hof⟩ := h'
    obtain ⟨row, hrow, hrun⟩ := (mem_batches hfree).mp hrun
    have hbounded : ∀ row ∈ rows, run ∈ runs chunkMaxRowsIfUnsorted [] (peers rows row) →
        ((∀ chunk, result = .ok chunk → UnsortedBounded chunkMaxRowsIfUnsorted chunk) ↔
          (outOfOrder row.timepoint.timelineNames run = true → run.length ≤ chunkMaxRowsIfUnsorted.toNat)) :=
      fun row _ hrun => unsortedBounded_of_run hof hcolumns fun r hr => peers_names (mem_of_mem_run hrun hr)
    constructor
    · intro h row' hrow' hrun'
      exact (hbounded row' hrow' hrun').mp h
    · intro h
      exact (hbounded row hrow hrun).mpr (h row hrow hrun)

/-! ## Rows that break the order late -/

def frameTime (frame : Fin 3) : I64 := ⟨frame.val, by omega, by omega⟩

def rowAt (rowId : RowId) (frame : Fin 3) : PendingRow where
  rowId := rowId
  timepoint := ⟨AList.singleton ⟨"frame"⟩ ⟨.sequence, frameTime frame, by
    intro h
    have hval : (frame.val : Int) = -9223372036854775808 := congrArg I64.val h
    omega⟩, pairwise_singleton ..⟩
  components := AList.singleton ⟨"position"⟩ ⟨none, ⟨"Float32", [[1]]⟩⟩

def lateRows : List PendingRow :=
  [rowAt 0 1, rowAt 1 2, rowAt 2 0]

def earlyRows : List PendingRow :=
  [rowAt 0 2, rowAt 1 1, rowAt 2 0]

theorem collisionFree_lateRows : plainTraversal.CollisionFree lateRows := by
  apply @collisionFree_of_eq _ plainTraversal [⟨"frame"⟩] ["Float32"]
  intro row hrow
  obtain rfl | rfl | rfl : row = _ ∨ row = _ ∨ row = _ := by simpa only [lateRows, mem_cons,
    not_mem_nil, or_false] using hrow
  all_goals exact ⟨rfl, rfl⟩

theorem collisionFree_earlyRows : plainTraversal.CollisionFree earlyRows := by
  apply @collisionFree_of_eq _ plainTraversal [⟨"frame"⟩] ["Float32"]
  intro row hrow
  obtain rfl | rfl | rfl : row = _ ∨ row = _ ∨ row = _ := by simpa only [earlyRows, mem_cons,
    not_mem_nil, or_false] using hrow
  all_goals exact ⟨rfl, rfl⟩

theorem sorted_lateRows : sorted lateRows = lateRows := mergeSort_of_pairwise (by decide)

theorem sorted_earlyRows : sorted earlyRows = earlyRows := mergeSort_of_pairwise (by decide)

/-- The late rows come out in one chunk, out of order, of three rows where two are the limit. -/
theorem lateRows_not_bounded : plainTraversal.CollisionFree lateRows ∧ ∃ results chunk,
    manyIntoChunks plainTraversal 0 ⟨["points"]⟩ 2 lateRows = .ok results ∧ .ok chunk ∈ results ∧
      ¬UnsortedBounded 2 chunk := by
  refine ⟨collisionFree_lateRows, ?_⟩
  unfold manyIntoChunks manyIntoColumns
  rw [sorted_lateRows]
  refine ⟨_, _, rfl, mem_cons_self, ?_⟩
  intro h
  exact absurd (h rfl) (by decide)

/-- The early ones are bounded, as their first two rows are out of order already. -/
theorem unsortedBounded_iff_early : ∃ results,
    manyIntoChunks plainTraversal 0 ⟨["points"]⟩ 2 earlyRows = .ok results ∧
      ((∀ chunk, .ok chunk ∈ results → UnsortedBounded 2 chunk) ↔
        ∀ row ∈ earlyRows, Seq.BlocksBad 2 (outOfOrder row.timepoint.timelineNames) (peers earlyRows row)) := by
  have hmade : ∃ results, manyIntoChunks plainTraversal 0 ⟨["points"]⟩ 2 earlyRows = .ok results := by
    unfold manyIntoChunks manyIntoColumns
    rw [sorted_earlyRows]
    exact ⟨_, rfl⟩
  obtain ⟨results, hresults⟩ := hmade
  exact ⟨results, hresults,
    unsortedBounded_iff plainTraversal 0 ⟨["points"]⟩ 2 earlyRows collisionFree_earlyRows hresults⟩

end PendingRow

end Dalaran
