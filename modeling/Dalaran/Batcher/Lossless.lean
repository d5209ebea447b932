import Mathlib.Algebra.Order.BigOperators.Group.List
import Mathlib.Algebra.Order.Group.Nat
import Dalaran.Base.Collect
import Dalaran.Batcher.Batch

/-
  Batching keeps the rows (`PendingRow::many_into_chunks`).

  Rows are grouped by their timeline names and by the sequence of their datatypes.
  Neither says what type a timeline has or which component a datatype belongs to,
  so rows of one group can disagree on either, and then a chunk gives a row
  another time type or has no column for a component; it has none either where
  arrow fails to concatenate arrays of one datatype. Where the rows of every run
  agree and nothing fails, every row comes out once, with its id, its times and its arrays, and for
  rows of distinct ids this is the only case in which it does
  (`manyIntoChunks_lossless`).
-/

namespace Dalaran

open List Assoc

/-! ## What batching should do -/

namespace PendingRow

/-- The rows with the timelines and the datatypes of a row, in the order of their ids. -/
def peers (rows : List PendingRow) (row : PendingRow) : List PendingRow :=
  (sorted rows).filter fun r =>
    decide (r.timepoint.timelineNames = row.timepoint.timelineNames) && decide (r.datatypes = row.datatypes)

/-- The rows of each run agree on the types of their timelines and components, whose arrays can be
concatenated. -/
def RunsUniform (concatFails : List ArrowArray → Bool) (chunkMaxRowsIfUnsorted : UInt64) (rows : List PendingRow) :
    Prop :=
  ∀ row ∈ rows, ∀ run ∈ runs chunkMaxRowsIfUnsorted [] (peers rows row), Uniform concatFails run

/-- All chunks are made, and every row is in one of them, with its id, its times and its arrays. -/
def Lossless (T : Traversal) (n : Nat) (entityPath : EntityPath) (chunkMaxRowsIfUnsorted : UInt64)
    (rows : List PendingRow) : Prop :=
  ∃ chunks : List Chunk, manyIntoChunks T n entityPath chunkMaxRowsIfUnsorted rows = .ok (chunks.map .ok) ∧
    (chunks.flatMap (·.loggedRows)).Perm (rows.map (·.logged entityPath))

end PendingRow

/-- No two of the rows have one hash and different timelines or datatypes. -/
structure Traversal.CollisionFree (T : Traversal) (rows : List PendingRow) : Prop where
  timelines : ∀ a ∈ rows, ∀ b ∈ rows, T.timelineSet a.timepoint.timelineNames = T.timelineSet b.timepoint.timelineNames →
    a.timepoint.timelineNames = b.timepoint.timelineNames
  datatypes : ∀ a ∈ rows, ∀ b ∈ rows, T.datatypeSet a.datatypes = T.datatypeSet b.datatypes → a.datatypes = b.datatypes

/-! ## The runs of all groups -/

namespace PendingRow

/-- The runs of all groups, in the order of the chunks. -/
def batches (T : Traversal) (chunkMaxRowsIfUnsorted : UInt64) (rows : List PendingRow) : List (List PendingRow) :=
  (T.intoValues (Assoc.groupInto (fun row => T.timelineSet row.timepoint.timelineNames) (sorted rows))).flatMap fun rows =>
    (T.intoValues (Assoc.groupInto (fun row => T.datatypeSet row.datatypes) rows)).flatMap
      (runs chunkMaxRowsIfUnsorted [])

theorem sorted_perm (rows : List PendingRow) : (sorted rows).Perm rows := mergeSort_perm _ _

theorem sorted_ascending (rows : List PendingRow) : ((sorted rows).map (·.rowId)).Pairwise (· ≤ ·) := by
  rw [pairwise_map]
  have h := @List.pairwise_mergeSort _ (fun a b : PendingRow => decide (a.rowId ≤ b.rowId))
    (fun a b c hab hbc => decide_eq_true (le_trans (of_decide_eq_true hab) (of_decide_eq_true hbc)))
    (fun a b => by simpa using le_total a.rowId b.rowId) rows
  exact h.imp fun hab => of_decide_eq_true hab

variable {T : Traversal} {max : UInt64} {rows : List PendingRow}

theorem mem_groups (hfree : T.CollisionFree rows) {group : List PendingRow} :
    (∃ outer ∈ T.intoValues (Assoc.groupInto (fun row => T.timelineSet row.timepoint.timelineNames) (sorted rows)),
      group ∈ T.intoValues (Assoc.groupInto (fun row => T.datatypeSet row.datatypes) outer)) ↔
    ∃ row ∈ rows, group = peers rows row := by
  have hmem : ∀ {row}, row ∈ sorted rows ↔ row ∈ rows := (sorted_perm rows).mem_iff
  -- the group of a row by its two hashes
  have hgroup : ∀ row ∈ rows, ((sorted rows).filter fun r => decide (T.timelineSet r.timepoint.timelineNames =
      T.timelineSet row.timepoint.timelineNames)).filter (fun r => decide (T.datatypeSet r.datatypes =
        T.datatypeSet row.datatypes)) = peers rows row := by
    intro row hrow
    rw [filter_filter]
    refine filter_congr ?_
    intro r hr
    have hr := hmem.mp hr
    have h₁ : T.timelineSet r.timepoint.timelineNames = T.timelineSet row.timepoint.timelineNames ↔
        r.timepoint.timelineNames = row.timepoint.timelineNames :=
      ⟨hfree.timelines r hr row hrow, congrArg T.timelineSet⟩
    have h₂ : T.datatypeSet r.datatypes = T.datatypeSet row.datatypes ↔ r.datatypes = row.datatypes :=
      ⟨hfree.datatypes r hr row hrow, congrArg T.datatypeSet⟩
    rw [decide_eq_decide.mpr h₁, decide_eq_decide.mpr h₂, Bool.and_comm]
  constructor
  · intro h
    obtain ⟨outer, houter, hin⟩ := h
    rw [(T.intoValues_perm _).mem_iff, mem_values_groupInto] at houter hin
    obtain ⟨a, ha, rfl⟩ := houter
    obtain ⟨row, hrow, rfl⟩ := hin
    obtain ⟨hrow, hkey⟩ := mem_filter.mp hrow
    refine ⟨row, hmem.mp hrow, ?_⟩
    rw [← hgroup row (hmem.mp hrow), of_decide_eq_true hkey]
  · intro h
    obtain ⟨row, hrow, rfl⟩ := h
    refine ⟨_, (T.intoValues_perm _).mem_iff.mpr (mem_values_groupInto.mpr ⟨row, hmem.mpr hrow, rfl⟩), ?_⟩
    rw [(T.intoValues_perm _).mem_iff, mem_values_groupInto]
    refine ⟨row, mem_filter.mpr ⟨hmem.mpr hrow, decide_eq_true rfl⟩, ?_⟩
    rw [hgroup row hrow]

variable {run : List PendingRow}

theorem mem_batches (hfree : T.CollisionFree rows) :
    run ∈ batches T max rows ↔ ∃ row ∈ rows, run ∈ runs max [] (peers rows row) := by
  unfold batches
  rw [mem_flatMap]
  constructor
  · intro h
    obtain ⟨outer, houter, hrun⟩ := h
    obtain ⟨group, hgroup, hrun⟩ := mem_flatMap.mp hrun
    obtain ⟨row, hrow, rfl⟩ := (mem_groups hfree).mp ⟨outer, houter, hgroup⟩
    exact ⟨row, hrow, hrun⟩
  · intro h
    obtain ⟨row, hrow, hrun⟩ := h
    obtain ⟨outer, houter, hgroup⟩ := (mem_groups hfree).mpr ⟨row, hrow, rfl⟩
    exact ⟨outer, houter, mem_flatMap.mpr ⟨_, hgroup, hrun⟩⟩

theorem flatMap_runs (max : UInt64) (groups : List (List PendingRow)) :
    (groups.flatMap (runs max [])).flatten = groups.flatten := by
  induction groups with
  | nil => rfl
  | cons group groups ih => rw [flatMap_cons, flatten_append, runs_flatten, ih, nil_append, flatten_cons]

theorem intoValues_flatten_perm (T : Traversal) (key : PendingRow → UInt64) (rows : List PendingRow) :
    (T.intoValues (Assoc.groupInto key rows)).flatten.Perm rows :=
  (T.intoValues_perm _).flatten.trans (values_groupInto_perm key rows)

theorem batches_perm (T : Traversal) (max : UInt64) (rows : List PendingRow) :
    (batches T max rows).flatten.Perm rows := by
  have hgroups := (intoValues_flatten_perm T (fun row => T.timelineSet row.timepoint.timelineNames) (sorted rows)).trans
    (sorted_perm rows)
  refine Perm.trans ?_ hgroups
  unfold batches
  generalize T.intoValues (Assoc.groupInto _ (sorted rows)) = groups
  induction groups with
  | nil => exact Perm.nil
  | cons group groups ih =>
    rw [flatMap_cons, flatten_append, flatten_cons, flatMap_runs]
    exact (intoValues_flatten_perm T _ group).append ih

/-! ## The columns of all runs -/

theorem forall₂_flatMap {α β γ : Type} {P : β → γ → Prop} {f : α → List β} {g : α → List γ} :
    ∀ {l : List α}, (∀ a ∈ l, Forall₂ P (f a) (g a)) → Forall₂ P (l.flatMap f) (l.flatMap g)
  | [], _ => .nil
  | a :: l, h => by
    rw [flatMap_cons, flatMap_cons]
    exact rel_append (h a mem_cons_self)
      (forall₂_flatMap fun a' ha' => h a' (mem_cons_of_mem _ ha'))

def OfRun (columns : PendingColumns) (run : List PendingRow) : Prop :=
  ∃ all first, PendingColumns.RunColumns all first columns run

theorem intoColumns_ofRun {group : List PendingRow} (hne : group ≠ [])
    (hnames : ∀ a ∈ group, ∀ b ∈ group, a.timepoint.timelineNames = b.timepoint.timelineNames)
    (hsorted : (group.map (·.rowId)).Pairwise (· ≤ ·)) :
    Forall₂ OfRun (PendingColumns.intoColumns max group) (runs max [] group) := by
  obtain ⟨row, rest, rfl⟩ := exists_cons_of_ne_nil hne
  have hruns := @PendingColumns.intoColumns_runs max row rest fun row' hrow' =>
    hnames row' (mem_cons_of_mem _ hrow') row mem_cons_self
  have hflatten := runs_flatten max (row :: rest) []
  rw [nil_append] at hflatten
  have hsub : ∀ run ∈ runs max [] (row :: rest), run.Sublist (row :: rest) := by
    intro run hrun
    rw [← hflatten]
    exact sublist_flatten_of_mem hrun
  refine Forall₂.flip (Forall₂.imp ?_ ((forall₂_and_left _ _).mpr ⟨hsub, Forall₂.flip hruns⟩))
  intro run columns h
  obtain ⟨hsub, first, hholds⟩ := h
  have hfirst := hsub.subset (mem_of_mem_head? hholds.head)
  refine ⟨_, first, { toHolds := hholds, names := ?_, covers := ?_, ascending := ?_ }⟩
  · intro row' hrow'
    exact hnames row' (hsub.subset hrow') first hfirst
  · intro row' hrow' component hsome
    exact PendingColumns.mem_allComponents.mpr ⟨row', hsub.subset hrow', hsome⟩
  · exact Seq.ascending_iff.mpr (hsorted.sublist (hsub.map _))

theorem manyIntoColumns_batches (hfree : T.CollisionFree rows) :
    Forall₂ OfRun (manyIntoColumns T max rows) (batches T max rows) := by
  refine forall₂_flatMap ?_
  intro outer houter
  refine forall₂_flatMap ?_
  intro group hgroup
  obtain ⟨row, hrow, rfl⟩ := (mem_groups hfree).mp ⟨outer, houter, hgroup⟩
  have hnames : ∀ a ∈ peers rows row, a.timepoint.timelineNames = row.timepoint.timelineNames := by
    intro a ha
    obtain ⟨-, hkey⟩ := mem_filter.mp ha
    rw [Bool.and_eq_true] at hkey
    exact of_decide_eq_true hkey.1
  refine intoColumns_ofRun ?_ (fun a ha b hb => (hnames a ha).trans (hnames b hb).symm) ?_
  · refine @List.ne_nil_of_mem _ row _ (mem_filter.mpr ⟨(sorted_perm rows).mem_iff.mpr hrow, ?_⟩)
    simp
  · exact (sorted_ascending rows).sublist (filter_sublist.map _)

/-! ## The chunks of all runs -/

theorem manyIntoChunks_forall₂ (hfree : T.CollisionFree rows) (n : Nat) :
    Forall₂ (fun columns run => OfRun columns.1 run) ((manyIntoColumns T max rows).zipIdx n)
      (batches T max rows) := by
  have h := @manyIntoColumns_batches T max rows hfree
  rw [← zipIdx_map_fst n (manyIntoColumns T max rows), forall₂_map_left_iff] at h
  exact h

variable {entityPath : EntityPath}

theorem mapM_of_uniform {columns : List (PendingColumns × Nat)} {runs : List (List PendingRow)}
    (h : Forall₂ (fun columns run => OfRun columns.1 run) columns runs) (hu : ∀ run ∈ runs, Uniform T.concatFails run) :
    ∃ chunks : List Chunk, (columns.mapM fun columns => columns.1.intoChunk T (T.newChunkId columns.2) entityPath) =
        .ok (chunks.map .ok) ∧
      chunks.flatMap (·.loggedRows) = runs.flatten.map (·.logged entityPath) := by
  induction h with
  | nil => exact ⟨[], rfl, rfl⟩
  | @cons columns run columns' runs' hrun hruns ih =>
    obtain ⟨chunks, hchunks, hrows⟩ := ih fun run' hrun' => hu run' (mem_cons_of_mem _ hrun')
    obtain ⟨all, first, hof⟩ := hrun
    obtain ⟨chunk, hchunk, hlogged⟩ :=
      (hof.faithful_iff T (T.newChunkId columns.2) entityPath).mpr (hu run mem_cons_self)
    refine ⟨chunk :: chunks, ?_, ?_⟩
    · rw [mapM_cons, hchunk, hchunks]
      rfl
    · rw [flatMap_cons, flatten_cons, map_append, hlogged, hrows]

theorem exists_chunk {columns : List (PendingColumns × Nat)} {runs : List (List PendingRow)} {chunks : List Chunk}
    (h : Forall₂ (fun columns run => OfRun columns.1 run) columns runs)
    (hchunks : (columns.mapM fun columns => columns.1.intoChunk T (T.newChunkId columns.2) entityPath) =
      .ok (chunks.map .ok)) (hrun : run ∈ runs) :
    ∃ columns id, OfRun columns run ∧ ∃ chunk ∈ chunks, columns.intoChunk T id entityPath = .ok (.ok chunk) := by
  rw [Collect.mapM_ok_iff, forall₂_map_right_iff] at hchunks
  induction h generalizing chunks with
  | nil => cases hrun
  | @cons columns run' columns' runs' hof hruns ih =>
    obtain ⟨chunk, chunks', hchunk, hrest, rfl⟩ := forall₂_cons_left_iff.mp hchunks
    rcases mem_cons.mp hrun with rfl | hrun
    · exact ⟨columns.1, _, hof, chunk, mem_cons_self, hchunk⟩
    · obtain ⟨c, id, hc, chunk', hmem, hchunk'⟩ := ih hrest hrun
      exact ⟨c, id, hc, chunk', mem_cons_of_mem _ hmem, hchunk'⟩

theorem loggedRows_of_mem {chunk : Chunk} {all : PendingComponents} {first : PendingRow}
    (hof : PendingColumns.IsChunkOf T.concatFails entityPath all first run chunk) (hnodup : (rows.map (·.rowId)).Nodup)
    (hrun : ∀ row ∈ run, row ∈ rows) (hmem : ∀ r ∈ chunk.loggedRows, r ∈ rows.map (·.logged entityPath)) :
    chunk.loggedRows = run.map (·.logged entityPath) := by
  apply ext_getElem?
  intro i
  have hat := hof.loggedRows_getElem? i
  rw [List.getElem?_map]
  cases hrow : run[i]? with
  | none =>
    rw [hrow] at hat
    exact hat
  | some row =>
    rw [hrow, Option.map_some] at hat
    rw [hat, Option.map_some]
    obtain ⟨row', hrow', heq⟩ := mem_map.mp (hmem _ (mem_of_getElem? hat))
    have hid : row'.rowId = row.rowId := congrArg LoggedRow.rowId heq
    rw [← heq, inj_on_of_nodup_map hnodup hrow' (hrun row (mem_of_getElem? hrow)) hid]

theorem lossless_of_runsUniform (hfree : T.CollisionFree rows) (n : Nat) (h : RunsUniform T.concatFails max rows) :
    Lossless T n entityPath max rows := by
  obtain ⟨chunks, hchunks, hrows⟩ := @mapM_of_uniform T entityPath _ _ (@manyIntoChunks_forall₂ T max rows hfree n) (by
    intro run hrun
    obtain ⟨row, hrow, hrun⟩ := (mem_batches hfree).mp hrun
    exact h row hrow run hrun)
  refine ⟨chunks, hchunks, ?_⟩
  rw [hrows]
  exact (batches_perm T max rows).map _

theorem runsUniform_of_lossless (hfree : T.CollisionFree rows) {n : Nat} (hnodup : (rows.map (·.rowId)).Nodup)
    (h : Lossless T n entityPath max rows) : RunsUniform T.concatFails max rows := by
  intro row hrow run hrun
  obtain ⟨chunks, hchunks, hperm⟩ := h
  have hrun := (mem_batches hfree).mpr ⟨row, hrow, hrun⟩
  obtain ⟨columns, id, ⟨all, first, hof⟩, chunk, hmem, hchunk⟩ :=
    exists_chunk (@manyIntoChunks_forall₂ T max rows hfree n) hchunks hrun
  obtain ⟨chunk', hchunk', hchunkOf⟩ := hof.isChunkOf hchunk
  cases hchunk'
  refine hchunkOf.uniform hof (loggedRows_of_mem hchunkOf hnodup ?_ ?_)
  · intro row' hrow'
    exact (batches_perm T max rows).mem_iff.mp (mem_flatten.mpr ⟨run, hrun, hrow'⟩)
  · intro r hr
    exact hperm.mem_iff.mp (mem_flatMap.mpr ⟨chunk, hmem, hr⟩)

/-- Batching keeps the rows. Where the rows of every run agree on the types of their timelines and
components and their arrays can be concatenated, all chunks are made and every row is in one of them as it was; and rows of distinct ids come
through only then. -/
theorem manyIntoChunks_lossless (T : Traversal) (n : Nat) (entityPath : EntityPath) (chunkMaxRowsIfUnsorted : UInt64)
    (rows : List PendingRow) (hfree : T.CollisionFree rows) :
    (RunsUniform T.concatFails chunkMaxRowsIfUnsorted rows → Lossless T n entityPath chunkMaxRowsIfUnsorted rows) ∧
      ((rows.map (·.rowId)).Nodup →
        (Lossless T n entityPath chunkMaxRowsIfUnsorted rows ↔ RunsUniform T.concatFails chunkMaxRowsIfUnsorted rows)) := by
  refine ⟨lossless_of_runsUniform hfree n, ?_⟩
  intro hnodup
  exact ⟨runsUniform_of_lossless hfree hnodup, lossless_of_runsUniform hfree n⟩

/-! ## Rows that agree throughout -/

theorem runsUniform_of_uniform {concatFails : List ArrowArray → Bool} (max : UInt64) (h : Uniform concatFails rows)
    (hjoins : ∀ arrays, concatFails arrays = false) : RunsUniform concatFails max rows := by
  intro row hrow run hrun
  have hflatten := runs_flatten max (peers rows row) []
  rw [nil_append] at hflatten
  have hsub : run.Sublist (sorted rows) := by
    have hrun : run.Sublist (peers rows row) := by
      rw [← hflatten]
      exact sublist_flatten_of_mem hrun
    exact hrun.trans filter_sublist
  have hmem : ∀ row' ∈ run, row' ∈ rows := fun row' hrow' => (sorted_perm rows).mem_iff.mp (hsub.subset hrow')
  refine ⟨?_, fun _ _ => hjoins _, ?_⟩
  · intro a ha b hb
    exact h.agree a (hmem a ha) b (hmem b hb)
  · intro component
    refine le_trans ((hsub.map _).sum_le_sum fun _ _ => Nat.zero_le _) ?_
    rw [((sorted_perm rows).map _).sum_eq]
    exact h.short component

/-! ## Rows that do and rows that do not come through -/

def plainTraversal : Traversal where
  timelineSet := fun names => UInt64.ofNat names.length
  datatypeSet := fun datatypes => UInt64.ofNat datatypes.length
  intoValues := Assoc.values
  intoValues_perm := fun _ => Perm.refl _
  concatFails := fun _ => false
  newChunkId := id
  sizeBytes := fun rowIds _ _ => 16 * rowIds.length

def rowAtFrame (rowId : RowId) (typ : TimeType) (components : List (ComponentIdentifier × String)) : PendingRow where
  rowId := rowId
  timepoint := ⟨AList.singleton ⟨"frame"⟩ ⟨typ, .ONE, by decide⟩, pairwise_singleton ..⟩
  components := Assoc.ofList (components.map fun e => (e.1, ⟨none, ⟨e.2, [[0]]⟩⟩))

def agreeing : List PendingRow :=
  [rowAtFrame 0 .sequence [(⟨"a"⟩, "Int32"), (⟨"b"⟩, "Float32")],
    rowAtFrame 1 .sequence [(⟨"a"⟩, "Int32"), (⟨"b"⟩, "Float32")]]

def mixedDatatypes : List PendingRow :=
  [rowAtFrame 0 .sequence [(⟨"a"⟩, "Int32"), (⟨"b"⟩, "Float32")],
    rowAtFrame 1 .sequence [(⟨"b"⟩, "Int32"), (⟨"c"⟩, "Float32")]]

def mixedTimeTypes : List PendingRow :=
  [rowAtFrame 0 .sequence [(⟨"a"⟩, "Int32")], rowAtFrame 1 .timestampNs [(⟨"a"⟩, "Int32")]]

theorem collisionFree_of_eq (T : Traversal) {names : List TimelineName} {datatypes : List String}
    (h : ∀ row ∈ rows, row.timepoint.timelineNames = names ∧ row.datatypes = datatypes) : T.CollisionFree rows where
  timelines := fun a ha b hb _ => (h a ha).1.trans (h b hb).1.symm
  datatypes := fun a ha b hb _ => (h a ha).2.trans (h b hb).2.symm

theorem collisionFree_agreeing : plainTraversal.CollisionFree agreeing := by
  refine @collisionFree_of_eq _ plainTraversal [⟨"frame"⟩] ["Float32", "Int32"] ?_
  intro row hrow
  rcases mem_cons.mp hrow with rfl | hrow
  · exact ⟨rfl, rfl⟩
  · rw [mem_singleton.mp hrow]
    exact ⟨rfl, rfl⟩

theorem uniform_agreeing : Uniform (fun _ => false) agreeing := by
  have hrow : ∀ row ∈ agreeing, (∀ name x, row.timepoint.cells.lookup name = some x → x.typ = .sequence) ∧
      row.arrayOf = (rowAtFrame 0 .sequence [(⟨"a"⟩, "Int32"), (⟨"b"⟩, "Float32")]).arrayOf := by
    intro row hrow
    have hcells : row.timepoint.cells = AList.singleton ⟨"frame"⟩ ⟨.sequence, .ONE, by decide⟩ ∧
        row.arrayOf = (rowAtFrame 0 .sequence [(⟨"a"⟩, "Int32"), (⟨"b"⟩, "Float32")]).arrayOf := by
      rcases mem_cons.mp hrow with rfl | hrow
      · exact ⟨rfl, rfl⟩
      · rw [mem_singleton.mp hrow]
        exact ⟨rfl, rfl⟩
    refine ⟨?_, hcells.2⟩
    intro name x hx
    rw [hcells.1, ← AList.insert_empty, lookup_insert_ite] at hx
    split at hx
    · rw [← Option.some.inj hx]
    · cases hx
  refine ⟨?_, fun _ _ => rfl, ?_⟩
  · intro a ha b hb
    refine ⟨?_, ?_⟩
    · intro name x y hx hy
      exact ((hrow a ha).1 name x hx).trans ((hrow b hb).1 name y hy).symm
    · intro component x y hx hy
      rw [(hrow a ha).2] at hx
      rw [(hrow b hb).2] at hy
      rw [Option.mem_unique hx hy]
  · intro component
    have hlen : ∀ row ∈ agreeing, (row.arrayOf component).elim 0 (·.values.length) ≤ 1 := by
      intro row hmem
      rw [(hrow row hmem).2]
      unfold arrayOf rowAtFrame Assoc.ofList
      simp only [map_cons, map_nil, foldl_cons, foldl_nil, lookup_insert_ite]
      split
      · exact Nat.le_refl 1
      · split
        · exact Nat.le_refl 1
        · exact Nat.zero_le 1
    have hsum := sum_le_card_nsmul (agreeing.map fun row => (row.arrayOf component).elim 0 (·.values.length)) 1
      (by
        intro n hn
        obtain ⟨row, hmem, rfl⟩ := mem_map.mp hn
        exact hlen row hmem)
    rw [length_map] at hsum
    exact le_trans hsum (by decide)

theorem manyIntoChunks_lossless_agreeing : plainTraversal.CollisionFree agreeing ∧ (agreeing.map (·.rowId)).Nodup ∧
    Lossless plainTraversal 0 ⟨["points"]⟩ 8192 agreeing :=
  ⟨collisionFree_agreeing, by decide,
    (manyIntoChunks_lossless plainTraversal 0 ⟨["points"]⟩ 8192 agreeing collisionFree_agreeing).1
      (runsUniform_of_uniform 8192 uniform_agreeing fun _ => rfl)⟩

theorem not_lossless_of_run {T : Traversal} (hfree : T.CollisionFree rows) (hnodup : (rows.map (·.rowId)).Nodup)
    {n : Nat} {row : PendingRow} (hrow : row ∈ rows) (hsorted : sorted rows = rows)
    (hpeers : rows.filter (fun r => decide (r.timepoint.timelineNames = row.timepoint.timelineNames) &&
      decide (r.datatypes = row.datatypes)) = rows) (hrun : runs max [] rows = [rows]) (hu : ¬ Uniform T.concatFails rows) :
    ¬ Lossless T n entityPath max rows := by
  intro h
  refine hu (runsUniform_of_lossless hfree hnodup h row hrow rows ?_)
  unfold peers
  rw [hsorted, hpeers, hrun]
  exact mem_singleton.mpr rfl

theorem collisionFree_mixedDatatypes : plainTraversal.CollisionFree mixedDatatypes := by
  refine @collisionFree_of_eq _ plainTraversal [⟨"frame"⟩] ["Float32", "Int32"] ?_
  intro row hrow
  rcases mem_cons.mp hrow with rfl | hrow
  · exact ⟨rfl, rfl⟩
  · rw [mem_singleton.mp hrow]
    exact ⟨rfl, rfl⟩

theorem collisionFree_mixedTimeTypes : plainTraversal.CollisionFree mixedTimeTypes := by
  refine @collisionFree_of_eq _ plainTraversal [⟨"frame"⟩] ["Int32"] ?_
  intro row hrow
  rcases mem_cons.mp hrow with rfl | hrow
  · exact ⟨rfl, rfl⟩
  · rw [mem_singleton.mp hrow]
    exact ⟨rfl, rfl⟩

/-- A component that has a float in one row and an integer in the other has no column at all, and a
timestamp comes back as a sequence number. -/
theorem manyIntoChunks_loses : plainTraversal.CollisionFree mixedDatatypes ∧
    ¬ Lossless plainTraversal 0 ⟨["points"]⟩ 8192 mixedDatatypes ∧
    plainTraversal.CollisionFree mixedTimeTypes ∧
    ¬ Lossless plainTraversal 0 ⟨["points"]⟩ 8192 mixedTimeTypes := by
  refine ⟨collisionFree_mixedDatatypes, ?_, collisionFree_mixedTimeTypes, ?_⟩
  · refine not_lossless_of_run collisionFree_mixedDatatypes (by decide) mem_cons_self
      (mergeSort_of_pairwise (by decide)) rfl rfl ?_
    intro hu
    have h := (hu.agree _ mem_cons_self _ (mem_cons_of_mem _ mem_cons_self)).dataTypes ⟨"b"⟩ _ _ rfl rfl
    revert h
    decide
  · refine not_lossless_of_run collisionFree_mixedTimeTypes (by decide) mem_cons_self
      (mergeSort_of_pairwise (by decide)) rfl rfl ?_
    intro hu
    have h := (hu.agree _ mem_cons_self _ (mem_cons_of_mem _ mem_cons_self)).timeTypes ⟨"frame"⟩ _ _
      rfl rfl
    revert h
    decide

end PendingRow

end Dalaran
