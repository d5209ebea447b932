import Dalaran.Base.LastOfRuns
import Dalaran.Query.RangeRows

/-
  The latest row at each time (`dl_chunk/src/slice.rs`).

  Densifying on a component, sorting by a timeline and deduplicating on it is
  documented to leave the latest value of the component for each time. The last
  step keeps the last row of each run of rows with one time (`Base/LastOfRuns`), so
  that row has to have the greatest row id.

  The sort returns a chunk as it is if its times ascend already. Then what is left
  is right exactly if at every time the last row has the greatest row id
  (`latestPerTime_keepsLatest_iff`).

  Correspondence (Rust ↔ Lean):
    `densified`, `sorted_by_timeline_if_unsorted`, `deduped_latest_on_index` ↔ `Chunk.latestPerTime`,
      one after the other
-/

namespace Dalaran

open List Option

namespace Chunk

def denseInOrder (env : Env) (k : Nat) (c : Chunk) (timeline : TimelineName) (component : ComponentIdentifier) :
    Chunk × Nat :=
  let densified := c.densified env k component
  densified.1.sortedByTimelineIfUnsorted env densified.2.2 timeline

def latestPerTime (env : Env) (k : Nat) (c : Chunk) (timeline : TimelineName) (component : ComponentIdentifier) : Chunk :=
  let sorted := c.denseInOrder env k timeline component
  (sorted.1.dedupedLatestOnIndex env sorted.2 timeline).1

end Chunk

/-! ## What it promises -/

def Row.CellAt (row : Row) (timeline : TimelineName) (component : ComponentIdentifier) (t : I64) : Prop :=
  (row.cells component).isSome ∧ row.times timeline = some t

namespace Chunk

def cellRows (c : Chunk) (component : ComponentIdentifier) : List Row :=
  c.rows.filter fun row => (row.cells component).isSome

/-- One row for each time at which the component has a cell, in the order of the times: one with the
greatest row id at that time. -/
structure KeepsLatest (rows : List Row) (c : Chunk) (timeline : TimelineName) (component : ComponentIdentifier) :
    Prop where
  ascends : rows.Pairwise fun a b => ∀ t ∈ a.times timeline, ∀ u ∈ b.times timeline, t < u
  covers : ∀ row ∈ c.rows, ∀ t, row.CellAt timeline component t → ∃ row' ∈ rows, row'.times timeline = some t
  greatest : ∀ row ∈ rows, row ∈ c.rows ∧ ∃ t, row.CellAt timeline component t ∧
    ∀ row' ∈ c.rows, row'.CellAt timeline component t → row'.rowId ≤ row.rowId

/-- At every time the last of the rows has the greatest row id. -/
def LastIsGreatest (timeline : TimelineName) (rows : List Row) : Prop :=
  ∀ t last, (rows.filter fun row => decide (row.times timeline = some t)).getLast? = some last →
    ∀ row ∈ rows, row.times timeline = some t → row.rowId ≤ last.rowId

/-- There are no rows to keep, or there is the timeline, and the last row at each time has the greatest
row id where the times of the rows with a cell are in order. Without the component there are no rows at all. -/
def LatestIsLast (c : Chunk) (timeline : TimelineName) (component : ComponentIdentifier) : Prop :=
  c.rows = [] ∨ (c.components.lookup component).isSome ∧ (c.cellRows component = [] ∨
    (c.timelines.lookup timeline).isSome ∧ ((c.cellRows component).Pairwise (Row.NotLater timeline) →
      LastIsGreatest timeline (c.cellRows component)))

variable {c : Chunk} {env : Env} {k : Nat} {timeline : TimelineName} {component : ComponentIdentifier}
  {rows : List Row}

/-! ## The last rows -/

def timeOn (timeline : TimelineName) (row : Row) : I64 := (row.times timeline).getD I64.MIN

theorem timeOn_eq_iff {row : Row} {t : I64} (h : (row.times timeline).isSome) :
    timeOn timeline row = t ↔ row.times timeline = some t := by
  obtain ⟨u, hu⟩ := isSome_iff_exists.mp h
  rw [timeOn, hu, getD_some, Option.some.injEq]

theorem lastIsGreatest_of_notAfter (h : rows.Pairwise (Row.NotAfter timeline)) : LastIsGreatest timeline rows := by
  intro t last hlast row hrow htime
  obtain ⟨front, hfront⟩ := List.getLast?_eq_some_iff.mp hlast
  have hat : ∀ row ∈ front ++ [last], row.times timeline = some t := by
    intro row hmem
    rw [← hfront] at hmem
    exact of_decide_eq_true (mem_filter.mp hmem).2
  have hpairs : (front ++ [last]).Pairwise (Row.NotAfter timeline) := hfront ▸ h.filter _
  have hmem : row ∈ front ++ [last] := hfront ▸ mem_filter.mpr ⟨hrow, decide_eq_true htime⟩
  obtain hmem | hmem := mem_append.mp hmem
  · have hle := (pairwise_append.mp hpairs).2.2 row hmem last mem_cons_self
    unfold Row.NotAfter Row.indexOn at hle
    rw [htime, hat last (mem_append_right front mem_cons_self)] at hle
    have hlex : toLex (t, row.rowId) ≤ toLex (t, last.rowId) := hle _ rfl _ rfl
    exact (Prod.Lex.toLex_le_toLex'.mp hlex).2 rfl
  · rw [mem_singleton.mp hmem]

theorem keepsLatest_lastOfRuns_iff (hperm : rows.Perm (c.cellRows component))
    (htimes : ∀ row ∈ rows, (row.times timeline).isSome) (horder : rows.Pairwise (Row.NotLater timeline)) :
    KeepsLatest (Seq.lastOfRuns (timeOn timeline) rows) c timeline component ↔ LastIsGreatest timeline rows := by
  have hmem : ∀ {row : Row}, row ∈ rows ↔ row ∈ c.rows ∧ (row.cells component).isSome = true := by
    intro row
    rw [hperm.mem_iff, cellRows, mem_filter]
  have hsub := Seq.lastOfRuns_sublist (timeOn timeline) rows
  have hkeys : rows.Pairwise fun a b => timeOn timeline a ≤ timeOn timeline b := by
    apply horder.imp_of_mem
    intro a b ha hb hab
    obtain ⟨t, ht⟩ := isSome_iff_exists.mp (htimes a ha)
    obtain ⟨u, hu⟩ := isSome_iff_exists.mp (htimes b hb)
    rw [timeOn, timeOn, ht, hu]
    exact hab t ht u hu
  -- what is kept is the last row with its time
  have hlast : ∀ {row : Row} {t : I64}, row ∈ Seq.lastOfRuns (timeOn timeline) rows → row.times timeline = some t →
      (rows.filter fun row => decide (row.times timeline = some t)).getLast? = some row := by
    intro row t hrow ht
    rw [← Seq.getLast?_of_mem_lastOfRuns hkeys hrow]
    congr 1
    apply filter_congr
    intro row' hrow'
    rw [decide_eq_decide, timeOn_eq_iff (htimes row' hrow'), timeOn, ht, getD_some]
  constructor
  · intro h t last hgot row hrow ht
    obtain ⟨kept, hkept, heq⟩ := Seq.exists_mem_lastOfRuns (timeOn timeline) hrow
    have hkeptAt : kept.times timeline = some t := by
      rw [timeOn, timeOn, ht, getD_some] at heq
      exact (timeOn_eq_iff (htimes kept (hsub.subset hkept))).mp heq
    obtain rfl : kept = last := some.inj ((hlast hkept hkeptAt).symm.trans hgot)
    obtain ⟨-, u, hcell, hle⟩ := h.greatest kept hkept
    obtain rfl : u = t := mem_unique hcell.2 hkeptAt
    exact hle row (hmem.mp hrow).1 ⟨(hmem.mp hrow).2, ht⟩
  · intro h
    refine ⟨?_, ?_, ?_⟩
    · apply (Seq.lastOfRuns_pairwise hkeys).imp
      intro a b hab t ht u hu
      rwa [timeOn, timeOn, ht, hu] at hab
    · intro row hrow t hcell
      obtain ⟨kept, hkept, heq⟩ := Seq.exists_mem_lastOfRuns (timeOn timeline) (hmem.mpr ⟨hrow, hcell.1⟩)
      refine ⟨kept, hkept, (timeOn_eq_iff (htimes kept (hsub.subset hkept))).mp ?_⟩
      rw [heq, timeOn, hcell.2, getD_some]
    · intro row hrow
      obtain ⟨hin, hcell⟩ := hmem.mp (hsub.subset hrow)
      obtain ⟨t, ht⟩ := isSome_iff_exists.mp (htimes row (hsub.subset hrow))
      refine ⟨hin, t, ⟨hcell, ht⟩, ?_⟩
      intro row' hrow' hcell'
      exact h t row (hlast hrow ht) row' (hmem.mpr ⟨hrow', hcell'.1⟩) hcell'.2

/-! ## Deduplicating -/

theorem isEmpty_iff : c.isEmpty = true ↔ c.rows = [] := by
  rw [isEmpty, List.isEmpty_iff, ← length_eq_zero_iff, ← length_eq_zero_iff, rows_length, numRows]

theorem dedupedLatestOnIndex_of_nil (h : c.rows = []) : c.dedupedLatestOnIndex env k timeline = (c, k) := by
  unfold dedupedLatestOnIndex
  rw [if_pos (isEmpty_iff.mpr h)]

theorem dedupedLatestOnIndex_rows (hwf : c.WellFormed) {tc : TimeColumn} (htc : c.timelines.lookup timeline = some tc) :
    (c.dedupedLatestOnIndex env k timeline).1.rows = Seq.lastOfRuns (timeOn timeline) c.rows := by
  have hkeys : c.rows.map (timeOn timeline) = tc.times := by
    have hmap := congrArg (List.map fun time : Option I64 => time.getD I64.MIN) (rows_map_times hwf htc)
    rw [List.map_map, List.map_map] at hmap
    exact hmap.trans (List.map_id _)
  by_cases hempty : c.isEmpty = true
  · have hnil : c.rows = [] := isEmpty_iff.mp hempty
    rw [dedupedLatestOnIndex_of_nil hnil, hnil]
    rfl
  · unfold dedupedLatestOnIndex
    have hstatic : ¬c.isStatic = true := by
      intro hstatic
      exact Assoc.entries_ne_nil_iff.mpr ⟨timeline, by rw [htc]; rfl⟩ (List.isEmpty_iff.mp hstatic)
    rw [if_neg hempty]
    rw [if_neg hstatic, htc]
    have hlt : ∀ i ∈ Seq.runEnds 0 tc.times, i < c.numRows := by
      intro i hi
      have hmem := mem_range'_1.mp ((Seq.runEnds_sublist 0 tc.times).subset hi)
      rw [← hwf.times_length _ _ htc]
      omega
    rw [← Seq.permute_runEnds, hkeys]
    apply TakesRows.rows_eq _ hwf hlt
    refine takesRows_of_taken ?_ ?_ ?_ ?_
    · rfl
    · rfl
    · rfl
    · intro component
      rw [Assoc.lookup_map, Option.map_map]
      rfl

theorem exists_mem_dedupedLatestOnIndex (env : Env) (k : Nat) (hwf : c.WellFormed) (timeline : TimelineName)
    (hne : c.rows ≠ []) : ∃ row ∈ (c.dedupedLatestOnIndex env k timeline).1.rows, row ∈ c.rows := by
  cases htc : c.timelines.lookup timeline with
  | some tc =>
    rw [dedupedLatestOnIndex_rows hwf htc]
    have hruns : Seq.lastOfRuns (timeOn timeline) c.rows ≠ [] := fun h => hne (Seq.lastOfRuns_eq_nil_iff.mp h)
    obtain ⟨row, hrow⟩ := exists_mem_of_ne_nil _ hruns
    exact ⟨row, hrow, (Seq.lastOfRuns_sublist _ _).subset hrow⟩
  | none =>
    have hempty : ¬c.isEmpty = true := fun h => hne (isEmpty_iff.mp h)
    unfold dedupedLatestOnIndex
    rw [if_neg hempty]
    by_cases hstatic : c.isStatic = true
    · -- of a static chunk the last row is kept
      rw [if_pos hstatic, rowSlicedShallow_rows hwf]
      have hpos : 0 < c.rows.length := length_pos_iff.mpr hne
      have hdrop : (c.rows.drop (c.numRows - 1)).take 1 ≠ [] := by
        rw [← rows_length, Ne, ← length_eq_zero_iff, length_take, length_drop]
        omega
      obtain ⟨row, hrow⟩ := exists_mem_of_ne_nil _ hdrop
      exact ⟨row, hrow, mem_of_mem_drop (mem_of_mem_take hrow)⟩
    · rw [if_neg hstatic, htc]
      obtain ⟨row, hrow⟩ := exists_mem_of_ne_nil _ hne
      exact ⟨row, hrow, hrow⟩

/-! ## When it keeps the latest rows -/

theorem sortedByTimelineIfUnsorted_perm (env : Env) (k : Nat) (hwf : c.WellFormed) (timeline : TimelineName) :
    (c.sortedByTimelineIfUnsorted env k timeline).1.rows.Perm c.rows := by
  cases htc : c.timelines.lookup timeline with
  | none => rw [sortedByTimelineIfUnsorted_of_none env k htc]
  | some tc =>
    cases hs : tc.isSorted with
    | true => rw [sortedByTimelineIfUnsorted_of_sorted env k htc hs]
    | false => exact (sortedByTimelineIfUnsorted_of_unsorted env k hwf htc hs).1.rows

theorem denseInOrder_spec (env : Env) (k : Nat) (hwf : c.WellFormed) {tc : TimeColumn}
    (htc : c.timelines.lookup timeline = some tc) {column : ComponentColumn}
    (hcol : c.components.lookup component = some column) {s : Chunk}
    (hs : s = (c.denseInOrder env k timeline component).1) :
    s.WellFormed ∧ s.rows.Perm (c.cellRows component) ∧ (s.timelines.lookup timeline).isSome ∧
      s.rows.Pairwise (Row.NotLater timeline) ∧
      (s.rows = c.cellRows component ∨
        ¬(c.cellRows component).Pairwise (Row.NotLater timeline) ∧ s.rows.Pairwise (Row.NotAfter timeline)) := by
  obtain ⟨hdense, hrows⟩ := densified_spec env k hwf hcol
  change _ = c.cellRows component at hrows
  have hlookup := densified_timelines env k c component timeline
  rw [htc, isSome_some] at hlookup
  obtain ⟨dtc, hdtc⟩ := isSome_iff_exists.mp hlookup
  obtain ⟨hswf, hperm, hlookup, horder, hcases⟩ := sortedByTimelineIfUnsorted_spec env _ hdense hdtc hs
  rw [hrows] at hperm hcases
  refine ⟨hswf, hperm, hlookup, horder, hcases.imp_left fun heq => ?_⟩
  rw [heq, hrows]

theorem denseInOrder_components (env : Env) (k : Nat) (hwf : c.WellFormed) (timeline : TimelineName)
    (name : ComponentIdentifier) :
    ((c.denseInOrder env k timeline component).1.components.lookup name).isSome =
      (c.components.lookup name).isSome := by
  rw [← densified_components env k c component name]
  exact sortedByTimelineIfUnsorted_components (densified_wf hwf component) name

theorem exists_mem_latestPerTime (env : Env) (k : Nat) (hwf : c.WellFormed) (timeline : TimelineName)
    (hne : (c.densified env k component).1.rows ≠ []) :
    ∃ row ∈ (c.latestPerTime env k timeline component).rows, row ∈ (c.densified env k component).1.rows := by
  have hdense := @densified_wf c env k hwf component
  have hperm := sortedByTimelineIfUnsorted_perm env (c.densified env k component).2.2 hdense timeline
  obtain ⟨row, hrow, hmem⟩ := exists_mem_dedupedLatestOnIndex env _ (sortedByTimelineIfUnsorted_wf hdense) timeline
    fun h => hne (perm_nil.mp (h ▸ hperm).symm)
  exact ⟨row, hrow, hperm.mem_iff.mp hmem⟩

theorem latestPerTime_of_nil (env : Env) (k : Nat) (hwf : c.WellFormed) (timeline : TimelineName)
    (hnil : (c.densified env k component).1.rows = []) : (c.latestPerTime env k timeline component).rows = [] := by
  have hdense := @densified_wf c env k hwf component
  have hperm := sortedByTimelineIfUnsorted_perm env (c.densified env k component).2.2 hdense timeline
  rw [hnil] at hperm
  have hsorted : (c.denseInOrder env k timeline component).1.rows = [] := perm_nil.mp hperm
  unfold latestPerTime
  dsimp only
  rw [dedupedLatestOnIndex_of_nil hsorted]
  exact hsorted

theorem latestPerTime_keepsLatest_of_columns (env : Env) (k : Nat) (hwf : c.WellFormed) {tc : TimeColumn}
    (htc : c.timelines.lookup timeline = some tc) {column : ComponentColumn}
    (hcol : c.components.lookup component = some column) :
    KeepsLatest (c.latestPerTime env k timeline component).rows c timeline component ↔
      ((c.cellRows component).Pairwise (Row.NotLater timeline) →
        LastIsGreatest timeline (c.cellRows component)) := by
  obtain ⟨hswf, hperm, hlookup, horder, hcases⟩ := denseInOrder_spec env k hwf htc hcol rfl
  obtain ⟨stc, hstc⟩ := isSome_iff_exists.mp hlookup
  have htimes : ∀ row ∈ (c.denseInOrder env k timeline component).1.rows, (row.times timeline).isSome := by
    intro row hrow
    have hmem := List.mem_map_of_mem (f := fun row : Row => row.times timeline) hrow
    rw [rows_map_times hswf hstc] at hmem
    obtain ⟨t, -, ht⟩ := List.mem_map.mp hmem
    rw [← ht]
    rfl
  unfold latestPerTime
  rw [dedupedLatestOnIndex_rows hswf hstc, keepsLatest_lastOfRuns_iff hperm htimes horder]
  obtain hsame | ⟨hunordered, hafter⟩ := hcases
  · rw [hsame] at horder ⊢
    exact ⟨fun h _ => h, fun h => h horder⟩
  · exact ⟨fun _ h => absurd h hunordered, fun _ => lastIsGreatest_of_notAfter hafter⟩

theorem not_cellAt_of_component (hcol : c.components.lookup component = none) {row : Row} (hrow : row ∈ c.rows)
    {t : I64} : ¬row.CellAt timeline component t := by
  intro hcell
  obtain ⟨i, hi⟩ := mem_iff_getElem?.mp hrow
  rw [rows_getElem?] at hi
  obtain ⟨rowId, -, rfl⟩ := map_eq_some_iff.mp hi
  have hsome : (c.cellAt i component).isSome := hcell.1
  rw [cellAt, hcol] at hsome
  cases hsome

theorem not_cellAt_of_timeline (htc : c.timelines.lookup timeline = none) {row : Row} (hrow : row ∈ c.rows)
    {t : I64} : ¬row.CellAt timeline component t := by
  intro hcell
  obtain ⟨i, hi⟩ := mem_iff_getElem?.mp hrow
  rw [rows_getElem?] at hi
  obtain ⟨rowId, -, rfl⟩ := map_eq_some_iff.mp hi
  have hsome : c.timeAt i timeline = some t := hcell.2
  rw [timeAt, htc] at hsome
  cases hsome

theorem keepsLatest_nil (h : ∀ row ∈ c.rows, (row.cells component).isSome = false) :
    KeepsLatest [] c timeline component where
  ascends := .nil
  covers := by
    intro row hrow t hcell
    exact absurd hcell.1 (Bool.eq_false_iff.mp (h row hrow))
  greatest _ hrow := absurd hrow not_mem_nil

/-- What is left is the latest row at each time exactly if, with the times of the rows with a cell in order,
the last row at each time has the greatest row id. -/
theorem latestPerTime_keepsLatest_iff (env : Env) (k : Nat) (c : ValidChunk) (timeline : TimelineName)
    (component : ComponentIdentifier) :
    KeepsLatest (c.toChunk.latestPerTime env k timeline component).rows c.toChunk timeline component ↔
      c.toChunk.LatestIsLast timeline component := by
  unfold LatestIsLast
  by_cases hrows : c.toChunk.rows = []
  · have hdense : (c.toChunk.densified env k component).1.rows = [] := by
      unfold densified
      rw [if_pos (isEmpty_iff.mpr hrows)]
      exact hrows
    rw [latestPerTime_of_nil env k c.wf timeline hdense]
    refine ⟨fun _ => .inl hrows, fun _ => keepsLatest_nil ?_⟩
    intro row hrow
    rw [hrows] at hrow
    cases hrow
  · cases hcol : c.components.lookup component with
    | none =>
      -- all rows are left, and none of them has a cell
      have hdense : (c.toChunk.densified env k component).1 = c.toChunk := by rw [densified_of_none hcol]
      obtain ⟨row, hrow, hmem⟩ := exists_mem_latestPerTime env k c.wf timeline (hdense ▸ hrows)
      rw [hdense] at hmem
      constructor
      · intro h
        obtain ⟨-, t, hcell, -⟩ := h.greatest row hrow
        exact absurd hcell (not_cellAt_of_component hcol hmem)
      · intro h
        obtain h | ⟨h, -⟩ := h
        · exact absurd h hrows
        · cases h
    | some column =>
      obtain ⟨-, hdense⟩ := densified_spec env k c.wf hcol
      change _ = c.toChunk.cellRows component at hdense
      by_cases hcells : c.toChunk.cellRows component = []
      · rw [latestPerTime_of_nil env k c.wf timeline (hdense.trans hcells)]
        refine ⟨fun _ => .inr ⟨rfl, .inl hcells⟩, fun _ => keepsLatest_nil ?_⟩
        intro row hrow
        exact Bool.eq_false_iff.mpr (filter_eq_nil_iff.mp hcells row hrow)
      · cases htc : c.timelines.lookup timeline with
        | none =>
          -- rows with a cell are left, and none of them has a time
          obtain ⟨row, hrow, hmem⟩ := exists_mem_latestPerTime env k c.wf timeline (hdense ▸ hcells)
          rw [hdense] at hmem
          constructor
          · intro h
            obtain ⟨-, t, hcell, -⟩ := h.greatest row hrow
            exact absurd hcell (not_cellAt_of_timeline htc (mem_filter.mp hmem).1)
          · intro h
            obtain h | ⟨-, h | ⟨h, -⟩⟩ := h
            · exact absurd h hrows
            · exact absurd h hcells
            · cases h
        | some tc =>
          rw [latestPerTime_keepsLatest_of_columns env k c.wf htc hcol]
          constructor
          · intro h
            exact .inr ⟨rfl, .inr ⟨rfl, h⟩⟩
          · intro h
            obtain h | ⟨-, h | ⟨-, h⟩⟩ := h
            · exact absurd h hrows
            · exact absurd h hcells
            · exact h

/-- Of two rows at one time, the greater row id first, the other one is kept. -/
theorem tiedChunk_not_keepsLatest :
    (tiedChunk.toChunk.latestPerTime (.countingFrom 100) 0 ⟨"frame"⟩ ⟨"position"⟩).rowIds = [1] ∧
      ¬ (∀ env k (c : ValidChunk) timeline component,
        KeepsLatest (c.toChunk.latestPerTime env k timeline component).rows c.toChunk timeline component) := by
  refine ⟨rfl, ?_⟩
  intro h
  have hkeeps := h (.countingFrom 100) 0 tiedChunk ⟨"frame"⟩ ⟨"position"⟩
  -- the first row of the chunk has the greater row id
  obtain ⟨row', hrow', hat⟩ := hkeeps.covers (tiedChunk.toChunk.rowAt 0 2) mem_cons_self (I64.sat 5) ⟨rfl, rfl⟩
  obtain ⟨-, t, hcell, hle⟩ := hkeeps.greatest row' hrow'
  obtain rfl : t = I64.sat 5 := some.inj (hcell.2.symm.trans hat)
  have hle' := hle (tiedChunk.toChunk.rowAt 0 2) mem_cons_self ⟨rfl, rfl⟩
  obtain rfl := mem_singleton.mp hrow'
  exact absurd hle' (by decide)

end Chunk

end Dalaran
