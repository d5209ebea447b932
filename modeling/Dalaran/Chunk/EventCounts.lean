import Dalaran.Base.Histogram
import Dalaran.Chunk.Rows
import Mathlib.Data.List.Dedup

/-
  Counting the events of a chunk by time (`num_events_cumulative_per_unique_time`).

  An event is a cell that is not null. On a sorted timeline the events of each row
  are counted first, and a walk over the rows joins neighbours with one time. On an
  unsorted one a map from times to counts is filled column by column. Both are
  instances of `Base/Histogram`, but without component columns the walk lists every
  time and the map none (`eventCounts_agree_iff`).

  Counts are `u64`, which a sum over cells in memory does not leave. The order in
  which the entries leave the map does not matter: they are sorted by their keys.

  Correspondence (Rust ↔ Lean):
    `TimeColumn::times` ↔ `TimeColumn.timeInts`
-/

namespace Dalaran

open List Option ListArray Histogram TimeInt

def TimeColumn.timeInts (tc : TimeColumn) : List TimeInt := tc.times.map TimeInt.newTemporal

namespace Chunk

/-- The number of events of each row. -/
def countsRaw (c : Chunk) : List Nat :=
  (Assoc.values c.components).foldl
    (fun counts column =>
      if column.listArray.hasNulls then
        counts.mapIdx fun i count => count + if column.listArray.validity[i]? = some true then 1 else 0
      else counts.map (· + 1))
    (replicate c.numRows 0)

def numEventsCumulativePerUniqueTimeSorted (c : Chunk) (tc : TimeColumn) : List (TimeInt × Nat) :=
  match tc.timeInts.head? with
  | none => []
  | some curTime =>
    let state := (tc.timeInts.zip c.countsRaw).foldl Histogram.join ([], (curTime, 0))
    if state.1.getLast?.map (·.1) = some state.2.1 then state.1 else state.1 ++ [state.2]

def numEventsCumulativePerUniqueTimeUnsorted (c : Chunk) (tc : TimeColumn) : List (TimeInt × Nat) :=
  let result := (Assoc.values c.components).foldl
    (fun acc column =>
      if column.listArray.hasNulls then
        Histogram.addAll acc (tc.timeInts.zip (column.listArray.validity.map Bool.toNat))
      else Histogram.addAll acc (tc.timeInts.map fun time => (time, 1)))
    ∅
  (Assoc.toList result).mergeSort fun a b => decide (a.1 ≤ b.1)

def numEventsCumulativePerUniqueTime (c : Chunk) (timeline : TimelineName) : List (TimeInt × Nat) :=
  if c.isStatic then [(TimeInt.STATIC, c.numEventsCumulative)]
  else
    match c.timelines.lookup timeline with
    | none => []
    | some tc =>
      if tc.timeRange.min = tc.timeRange.max then [(tc.timeRange.min, c.numEventsCumulative)]
      else if tc.isSorted then c.numEventsCumulativePerUniqueTimeSorted tc
      else c.numEventsCumulativePerUniqueTimeUnsorted tc

/-! ## What is counted -/

/-- The number of cells of all components in the rows at a time. -/
def numCellsAt (c : Chunk) (timeline : TimelineName) (time : I64) : Nat :=
  Assoc.sum c.components fun component _ =>
    c.rows.countP fun row => (row.cells component).isSome && decide (row.times timeline = some time)

/-- The times of the rows, each once, in order, with the number of cells at the time; the numbers add up
to the events of the chunk. -/
structure CountsEvents (counts : List (TimeInt × Nat)) (c : Chunk) (timeline : TimelineName) : Prop where
  ascends : counts.Pairwise fun a b => a.1 < b.1
  mem : ∀ time n, (time, n) ∈ counts ↔
    (∃ row ∈ c.rows, row.times timeline = some time.asI64) ∧ n = c.numCellsAt timeline time.asI64
  sum : (counts.map (·.2)).sum = c.numEventsCumulative

/-- The map counts the events of the chunk; on a sorted timeline so does the walk, with the same result. -/
structure EventCountsAgree (c : Chunk) (timeline : TimelineName) (tc : TimeColumn) : Prop where
  unsorted : CountsEvents (c.numEventsCumulativePerUniqueTimeUnsorted tc) c timeline
  sorted : tc.isSorted = true → CountsEvents (c.numEventsCumulativePerUniqueTimeSorted tc) c timeline
  same : tc.isSorted = true →
    c.numEventsCumulativePerUniqueTimeSorted tc = c.numEventsCumulativePerUniqueTimeUnsorted tc

variable {c : Chunk} {timeline : TimelineName} {component : ComponentIdentifier} {tc : TimeColumn}
  {column : ComponentColumn}

/-! ## The samples -/

/-- The time of each row with what a column adds to its count. -/
def columnSamples (tc : TimeColumn) (column : ComponentColumn) : List (TimeInt × Nat) :=
  tc.timeInts.zip (column.listArray.validity.map Bool.toNat)

def eventSamples (c : Chunk) (tc : TimeColumn) : List (TimeInt × Nat) :=
  (Assoc.values c.components).flatMap (columnSamples tc)

theorem validity_of_dense (h : column.listArray.hasNulls = false) :
    column.listArray.validity = replicate column.listArray.len true :=
  validity_all_of_nullCount (nullCount_of_dense h)

theorem timeInts_length (tc : TimeColumn) : tc.timeInts.length = tc.times.length := length_map ..

theorem zip_replicate {α β : Type} (l : List α) (b : β) : l.zip (replicate l.length b) = l.map fun a => (a, b) := by
  induction l with
  | nil => rfl
  | cons a l ih => rw [length_cons, replicate_succ, zip_cons_cons, ih, map_cons]

theorem columnSamples_of_dense (hlength : column.listArray.len = tc.times.length)
    (hdense : column.listArray.hasNulls = false) : columnSamples tc column = tc.timeInts.map fun time => (time, 1) := by
  rw [columnSamples, validity_of_dense hdense, hlength, map_replicate, ← timeInts_length, zip_replicate]
  rfl

theorem unsorted_counts (hlength : ∀ column ∈ Assoc.values c.components, column.listArray.len = tc.times.length) :
    Histogram.Counts (c.numEventsCumulativePerUniqueTimeUnsorted tc) (c.eventSamples tc) := by
  have hfold : ∀ (columns : List ComponentColumn) (acc : Assoc TimeInt Nat),
      (∀ column ∈ columns, column.listArray.len = tc.times.length) →
      columns.foldl
        (fun acc column =>
          if column.listArray.hasNulls then
            addAll acc (tc.timeInts.zip (column.listArray.validity.map Bool.toNat))
          else addAll acc (tc.timeInts.map fun time => (time, 1))) acc =
        addAll acc (columns.flatMap (columnSamples tc)) := by
    intro columns
    induction columns with
    | nil =>
      intro acc _
      rfl
    | cons column columns ih =>
      intro acc hlength
      rw [foldl_cons, ih _ fun column' hmem => hlength column' (mem_cons_of_mem column hmem),
        flatMap_cons, addAll_append]
      split
      · rfl
      · rename_i hdense
        rw [columnSamples_of_dense (hlength column mem_cons_self) (by simpa using hdense)]
  unfold numEventsCumulativePerUniqueTimeUnsorted
  rw [hfold _ _ hlength]
  exact summed_counts _

theorem counts_add_column {counts : List Nat} (hlength : column.listArray.len = counts.length) :
    (if column.listArray.hasNulls then
      counts.mapIdx fun i count => count + if column.listArray.validity[i]? = some true then 1 else 0
    else counts.map (· + 1)) = counts.zipWith (· + ·) (column.listArray.validity.map Bool.toNat) := by
  have hvalid : column.listArray.validity.length = counts.length := (validity_length _).trans hlength
  split
  · apply ext_getElem
    · rw [length_mapIdx, length_zipWith, length_map, hvalid, Nat.min_self]
    · intro i hi hi'
      rw [length_mapIdx] at hi
      rw [getElem_mapIdx, getElem_zipWith, getElem_map, getElem?_eq_getElem (hvalid ▸ hi)]
      have hlt : i < column.listArray.validity.length := hvalid ▸ hi
      cases column.listArray.validity[i] <;> rfl
  · rename_i hdense
    rw [validity_of_dense (by simpa using hdense), hlength, map_replicate]
    apply ext_getElem
    · rw [length_map, length_zipWith, length_replicate, Nat.min_self]
    · intro i hi hi'
      rw [getElem_map, getElem_zipWith, getElem_replicate]
      rfl

theorem countsRaw_spec (hlength : ∀ column ∈ Assoc.values c.components, column.listArray.len = c.numRows) :
    c.countsRaw.length = c.numRows ∧ ∀ time,
      Histogram.countAt (tc.timeInts.zip c.countsRaw) time = Histogram.countAt (c.eventSamples tc) time := by
  have hfold : ∀ (columns : List ComponentColumn) (counts : List Nat), counts.length = c.numRows →
      (∀ column ∈ columns, column.listArray.len = c.numRows) →
      (columns.foldl
        (fun counts column =>
          if column.listArray.hasNulls then
            counts.mapIdx fun i count => count + if column.listArray.validity[i]? = some true then 1 else 0
          else counts.map (· + 1)) counts).length = c.numRows ∧
      ∀ time, countAt (tc.timeInts.zip (columns.foldl
        (fun counts column =>
          if column.listArray.hasNulls then
            counts.mapIdx fun i count => count + if column.listArray.validity[i]? = some true then 1 else 0
          else counts.map (· + 1)) counts)) time =
        countAt (tc.timeInts.zip counts) time +
          countAt (columns.flatMap (columnSamples tc)) time := by
    intro columns
    induction columns with
    | nil =>
      intro counts hcounts _
      exact ⟨hcounts, fun _ => rfl⟩
    | cons column columns ih =>
      intro counts hcounts hlength
      have hcolumn := hlength column mem_cons_self
      have hvalid : counts.length = (column.listArray.validity.map Bool.toNat).length := by
        rw [length_map, validity_length, hcolumn, hcounts]
      have hadded : (counts.zipWith (· + ·) (column.listArray.validity.map Bool.toNat)).length = c.numRows := by
        rw [length_zipWith, ← hvalid, Nat.min_self, hcounts]
      obtain ⟨hlen, hcount⟩ := ih _ hadded fun column' hmem => hlength column' (mem_cons_of_mem column hmem)
      rw [foldl_cons, counts_add_column (hcolumn.trans hcounts.symm)]
      refine ⟨hlen, ?_⟩
      intro time
      rw [hcount, countAt_zip_add _ _ _ hvalid, flatMap_cons, countAt_append, Nat.add_assoc]
      rfl
  obtain ⟨hlen, hcount⟩ := hfold (Assoc.values c.components) (replicate c.numRows 0) length_replicate hlength
  refine ⟨hlen, ?_⟩
  intro time
  have hsum := hcount time
  rw [countAt_zip_zero, Nat.zero_add] at hsum
  exact hsum

theorem sorted_counts (hlength : c.countsRaw.length = tc.timeInts.length)
    (hasc : tc.timeInts.Pairwise (· ≤ ·)) :
    Histogram.Counts (c.numEventsCumulativePerUniqueTimeSorted tc) (tc.timeInts.zip c.countsRaw) := by
  unfold numEventsCumulativePerUniqueTimeSorted
  match htimes : tc.timeInts, hcounts : c.countsRaw, hlength with
  | [], [], _ => exact .nil
  | time :: times, count :: counts, hlength =>
    rw [htimes] at hasc
    obtain ⟨hbehind, hrest⟩ := pairwise_cons.mp hasc
    have hfirst : Counts ([] ++ [(time, 0 + count)]) ([] ++ [(time, count)]) := by
      rw [Nat.zero_add]
      exact Counts.nil.add_key fun a ha => absurd ha not_mem_nil
    have hkeys : ∀ sample ∈ times.zip counts, sample.1 ∈ times := fun sample hmem => (of_mem_zip hmem).1
    have hpairs : (times.zip counts).Pairwise fun a b => a.1 ≤ b.1 := by
      rw [← map_fst_zip (Nat.le_of_eq (Nat.succ.inj hlength).symm)] at hrest
      exact pairwise_map.mp hrest
    have hjoin := @Histogram.join_counts _ _ _ _ _ ([], (time, 0 + count)) hfirst
      (fun sample hmem => hbehind _ (hkeys sample hmem)) hpairs
    rw [head?_cons]
    dsimp only
    rw [zip_cons_cons, foldl_cons, Histogram.join, if_pos rfl]
    rw [if_neg]
    · exact hjoin
    · -- the time that the walk ends at is greater than those that are done
      intro hlast
      obtain ⟨last, hmem, heq⟩ := map_eq_some_iff.mp hlast
      have hlt := (pairwise_append.mp hjoin.ascends).2.2 last (mem_of_getLast? hmem) _ mem_cons_self
      exact absurd heq hlt.ne

/-! ## The events of the rows -/

theorem columnSamples_eq (hwf : c.WellFormed) (htc : c.timelines.lookup timeline = some tc)
    (hcol : c.components.lookup component = some column) :
    columnSamples tc column = c.rows.map fun row =>
      (TimeInt.newTemporal ((row.times timeline).getD I64.MIN), (row.cells component).isSome.toNat) := by
  have hlen : tc.times.length = c.rowIds.length := hwf.times_length _ _ htc
  have hcells : column.listArray.cells.length = c.rowIds.length := by
    rw [cells_length, hwf.cells_length _ _ hcol]
    rfl
  apply ext_getElem
  · rw [columnSamples, length_zip, length_map, validity_length, timeInts_length, length_map,
      rows_length, hlen, hwf.cells_length _ _ hcol, numRows, Nat.min_self]
  · intro i hi hi'
    rw [length_map, rows_length] at hi'
    have hid : i < c.rowIds.length := hi'
    have hrowlt : i < c.rows.length := by rwa [rows_length]
    have htimelt : i < tc.times.length := hlen ▸ hid
    have hcelllt : i < column.listArray.cells.length := hcells ▸ hid
    have htime : c.timeAt i timeline = some tc.times[i] := by
      rw [timeAt, htc, bind_some, getElem?_eq_getElem]
    have hcell : c.cellAt i component = column.listArray.cells[i] := by
      rw [cellAt, hcol, bind_some, getElem?_eq_getElem, join_some]
    have hrow : c.rows[i] = c.rowAt i c.rowIds[i] := getElem_mapIdx ..
    rw [getElem_map, hrow]
    simp [columnSamples, TimeColumn.timeInts, validity_eq_cells, rowAt, htime, hcell]

theorem mem_times_iff (hwf : c.WellFormed) (htc : c.timelines.lookup timeline = some tc) {t : I64} :
    t ∈ tc.times ↔ ∃ row ∈ c.rows, row.times timeline = some t := by
  have hmap : some t ∈ tc.times.map some ↔ some t ∈ c.rows.map (·.times timeline) := by
    rw [rows_map_times hwf htc]
  rw [List.mem_map, List.mem_map] at hmap
  rw [← hmap]
  simp

theorem mem_timeInts_iff (hwf : c.WellFormed) (htc : c.timelines.lookup timeline = some tc) {time : TimeInt} :
    time ∈ tc.timeInts ↔ ∃ row ∈ c.rows, row.times timeline = some time.asI64 := by
  have hint : ∀ t ∈ tc.times, TimeInt.newTemporal t = ⟨t⟩ := fun t ht =>
    newTemporal_of_ne ((hwf.times_wf _ _ htc).temporal t ht)
  rw [← mem_times_iff hwf htc]
  constructor
  · intro h
    obtain ⟨t, ht, rfl⟩ := mem_map.mp h
    rwa [hint t ht]
  · intro h
    exact mem_map.mpr ⟨time.asI64, h, hint _ h⟩

theorem time_of_row (hwf : c.WellFormed) (htc : c.timelines.lookup timeline = some tc) {row : Row} (hrow : row ∈ c.rows) :
    ∃ t ∈ tc.times, row.times timeline = some t := by
  have hmem : row.times timeline ∈ c.rows.map (·.times timeline) := mem_map_of_mem hrow
  rw [rows_map_times hwf htc] at hmem
  obtain ⟨t, ht, heq⟩ := mem_map.mp hmem
  exact ⟨t, ht, heq.symm⟩

theorem countAt_eventSamples (hwf : c.WellFormed) (htc : c.timelines.lookup timeline = some tc) (time : TimeInt) :
    Histogram.countAt (c.eventSamples tc) time = c.numCellsAt timeline time.asI64 := by
  have hcolumn : ∀ component column, c.components.lookup component = some column →
      countAt (columnSamples tc column) time =
        c.rows.countP fun row => (row.cells component).isSome && decide (row.times timeline = some time.asI64) := by
    intro component column hcol
    rw [columnSamples_eq hwf htc hcol]
    apply countAt_map
    intro row hrow
    obtain ⟨t, hmem, ht⟩ := time_of_row hwf htc hrow
    have htemporal := (hwf.times_wf _ _ htc).temporal t hmem
    rw [ht, getD_some, newTemporal_of_ne htemporal]
    have hiff : (⟨t⟩ : TimeInt) = time ↔ some t = some time.asI64 := by
      rw [Option.some.injEq]
      exact ⟨congrArg TimeInt.asI64, fun h => asI64_injective h⟩
    by_cases htime : (⟨t⟩ : TimeInt) = time
    · rw [if_pos htime, decide_eq_true (hiff.mp htime), Bool.and_true]
      cases (row.cells component).isSome <;> rfl
    · rw [if_neg htime, decide_eq_false fun h => htime (hiff.mpr h), Bool.and_false]
      rfl
  have hentries : ∀ entries : List (Sigma fun _ : ComponentIdentifier => ComponentColumn),
      (∀ e ∈ entries, c.components.lookup e.1 = some e.2) →
      countAt ((entries.map fun e => e.2).flatMap (columnSamples tc)) time =
        (entries.map fun e => c.rows.countP fun row =>
          (row.cells e.1).isSome && decide (row.times timeline = some time.asI64)).sum := by
    intro entries
    induction entries with
    | nil =>
      intro _
      rfl
    | cons e entries ih =>
      intro hentries
      rw [map_cons, flatMap_cons, countAt_append, hcolumn e.1 e.2 (hentries e mem_cons_self),
        ih fun e' hmem => hentries e' (mem_cons_of_mem e hmem), map_cons, sum_cons]
  exact hentries c.components.entries fun e he => AList.mem_lookup_iff.mpr he

theorem sum_eventSamples (hlength : ∀ column ∈ Assoc.values c.components, column.listArray.len = tc.times.length) :
    ((c.eventSamples tc).map (·.2)).sum = c.numEventsCumulative := by
  have hcolumn : ∀ column : ComponentColumn, column.listArray.len = tc.times.length →
      ((columnSamples tc column).map (·.2)).sum =
        if column.listArray.hasNulls then column.listArray.len - column.listArray.nullCount
        else column.listArray.len := by
    intro column hlen
    have hcount : (column.listArray.validity.map Bool.toNat).sum =
        column.listArray.len - column.listArray.nullCount := by
      rw [← validity_length, ListArray.nullCount]
      generalize column.listArray.validity = validity
      induction validity with
      | nil => rfl
      | cons valid validity ih =>
        have hle : validity.count false ≤ validity.length := count_le_length
        rw [map_cons, sum_cons, ih, length_cons]
        cases valid with
        | true =>
          rw [count_cons_of_ne (by simp), Bool.toNat_true]
          omega
        | false =>
          rw [count_cons_self, Bool.toNat_false]
          omega
    rw [columnSamples, map_snd_zip, hcount]
    · split
      · rfl
      · rename_i hdense
        rw [nullCount_of_dense (by simpa using hdense), Nat.sub_zero]
    · rw [length_map, validity_length, hlen, timeInts_length]
  unfold eventSamples numEventsCumulative
  generalize Assoc.values c.components = columns at hlength
  induction columns with
  | nil => rfl
  | cons column columns ih =>
    rw [flatMap_cons, map_append, sum_append, hcolumn column (hlength column mem_cons_self),
      ih fun column' hmem => hlength column' (mem_cons_of_mem column hmem), map_cons, sum_cons]

/-! ## Both count the events -/

theorem lengths_of_wf (hwf : c.WellFormed) (htc : c.timelines.lookup timeline = some tc) :
    (∀ column ∈ Assoc.values c.components, column.listArray.len = c.numRows) ∧ tc.times.length = c.numRows := by
  refine ⟨?_, hwf.times_length _ _ htc⟩
  intro column hmem
  obtain ⟨component, hcol⟩ := Assoc.mem_values.mp hmem
  exact hwf.cells_length _ _ hcol

theorem columnSamples_keys (hlength : column.listArray.len = tc.times.length) :
    (columnSamples tc column).map (·.1) = tc.timeInts := by
  apply map_fst_zip
  rw [length_map, validity_length, hlength, timeInts_length]

theorem mem_eventSamples_keys (hlength : ∀ column ∈ Assoc.values c.components, column.listArray.len = tc.times.length)
    {time : TimeInt} : time ∈ (c.eventSamples tc).map (·.1) ↔
      Assoc.values c.components ≠ [] ∧ time ∈ tc.timeInts := by
  rw [eventSamples, map_flatMap, mem_flatMap]
  constructor
  · intro h
    obtain ⟨column, hmem, htime⟩ := h
    rw [columnSamples_keys (hlength column hmem)] at htime
    exact ⟨ne_nil_of_mem hmem, htime⟩
  · intro h
    obtain ⟨column, hmem⟩ := exists_mem_of_ne_nil _ h.1
    refine ⟨column, hmem, ?_⟩
    rw [columnSamples_keys (hlength column hmem)]
    exact h.2

theorem countsEvents_of_counts (hwf : c.WellFormed) (htc : c.timelines.lookup timeline = some tc)
    {counts samples : List (TimeInt × Nat)} (h : Histogram.Counts counts samples)
    (hkeys : ∀ time, time ∈ samples.map (·.1) ↔ time ∈ tc.timeInts)
    (hsums : ∀ time, Histogram.countAt samples time = Histogram.countAt (c.eventSamples tc) time) :
    CountsEvents counts c timeline := by
  obtain ⟨hcolumns, hlen⟩ := lengths_of_wf hwf htc
  have hlength : ∀ column ∈ Assoc.values c.components, column.listArray.len = tc.times.length :=
    fun column hmem => (hcolumns column hmem).trans hlen.symm
  refine ⟨h.ascends, ?_, ?_⟩
  · intro time n
    rw [h.mem, hkeys, mem_timeInts_iff hwf htc, hsums, countAt_eventSamples hwf htc]
  · -- both kinds of samples are at the times of the rows
    have hnodup := nodup_dedup tc.timeInts
    calc (counts.map (·.2)).sum = (samples.map (·.2)).sum := h.sum_eq
      _ = (tc.timeInts.dedup.map (countAt samples)).sum := by
        rw [sum_countAt hnodup]
        intro sample hmem
        exact mem_dedup.mpr ((hkeys sample.1).mp (mem_map_of_mem hmem))
      _ = (tc.timeInts.dedup.map (countAt (c.eventSamples tc))).sum := by
        rw [map_congr_left fun time _ => hsums time]
      _ = ((c.eventSamples tc).map (·.2)).sum := by
        rw [sum_countAt hnodup]
        intro sample hmem
        exact mem_dedup.mpr ((mem_eventSamples_keys hlength).mp (mem_map_of_mem hmem)).2
      _ = c.numEventsCumulative := sum_eventSamples hlength

theorem sorted_countsEvents (hwf : c.WellFormed) (htc : c.timelines.lookup timeline = some tc)
    (hsorted : tc.isSorted = true) : CountsEvents (c.numEventsCumulativePerUniqueTimeSorted tc) c timeline := by
  obtain ⟨hcolumns, hlen⟩ := lengths_of_wf hwf htc
  obtain ⟨hraw, hsums⟩ := @countsRaw_spec c tc hcolumns
  have hlength : c.countsRaw.length = tc.timeInts.length := by rw [hraw, timeInts_length, hlen]
  have hasc : tc.timeInts.Pairwise (· ≤ ·) := by
    have htimes := Seq.ascending_iff.mp ((hwf.times_wf _ _ htc).isSorted_eq.symm.trans hsorted)
    apply pairwise_map.mpr
    apply htimes.imp
    intro t u htu
    rw [le_def, newTemporal_val, newTemporal_val]
    have hval : t.val ≤ u.val := htu
    omega
  apply countsEvents_of_counts hwf htc (sorted_counts hlength hasc) _ hsums
  intro time
  rw [map_fst_zip hlength.ge]

theorem unsorted_countsEvents_iff (hwf : c.WellFormed) (htc : c.timelines.lookup timeline = some tc) :
    CountsEvents (c.numEventsCumulativePerUniqueTimeUnsorted tc) c timeline ↔
      Assoc.values c.components ≠ [] ∨ c.rows = [] := by
  obtain ⟨hcolumns, hlen⟩ := lengths_of_wf hwf htc
  have hlength : ∀ column ∈ Assoc.values c.components, column.listArray.len = tc.times.length :=
    fun column hmem => (hcolumns column hmem).trans hlen.symm
  have hcounts := unsorted_counts hlength
  constructor
  · intro h
    by_contra hnot
    rw [not_or, not_not] at hnot
    obtain ⟨row, hrow⟩ := exists_mem_of_ne_nil _ hnot.2
    obtain ⟨t, hmem, ht⟩ := time_of_row hwf htc hrow
    -- the row has a time, but without columns there are no samples
    have hkey := (h.mem ⟨t⟩ _).mpr ⟨⟨row, hrow, ht⟩, rfl⟩
    have hkey' := (mem_eventSamples_keys hlength).mp ((hcounts.mem _ _).mp hkey).1
    exact hkey'.1 hnot.1
  · intro h
    apply countsEvents_of_counts hwf htc hcounts _ fun _ => rfl
    intro time
    rw [mem_eventSamples_keys hlength]
    refine ⟨fun h => h.2, fun htime => ⟨?_, htime⟩⟩
    obtain h | h := h
    · exact h
    · obtain ⟨row, hrow, -⟩ := (mem_timeInts_iff hwf htc).mp htime
      rw [h] at hrow
      exact absurd hrow not_mem_nil

theorem CountsEvents.unique {counts counts' : List (TimeInt × Nat)} (h : CountsEvents counts c timeline)
    (h' : CountsEvents counts' c timeline) : counts = counts' := by
  have hnodup : ∀ {counts : List (TimeInt × Nat)}, CountsEvents counts c timeline → counts.Nodup :=
    fun h => h.ascends.imp fun hlt heq => ne_of_lt hlt (congrArg Prod.fst heq)
  have hperm : counts.Perm counts' := by
    apply (perm_ext_iff_of_nodup (hnodup h) (hnodup h')).mpr
    intro a
    rw [h.mem a.1 a.2, h'.mem a.1 a.2]
  exact hperm.eq_of_pairwise (fun a b _ _ hlt hgt => absurd (hlt.trans hgt) (lt_irrefl _)) h.ascends h'.ascends

theorem components_ne_nil_iff : Assoc.values c.components ≠ [] ↔ ∃ component, (c.components.lookup component).isSome := by
  rw [← Assoc.entries_ne_nil_iff, Ne, Assoc.values, map_eq_nil_iff]

/-- The two ways to count the events by time agree, on every timeline of a valid chunk, exactly if the chunk
has a component column or no rows. -/
theorem eventCounts_agree_iff (c : ValidChunk) (timeline : TimelineName) (tc : TimeColumn)
    (htc : c.timelines.lookup timeline = some tc) :
    EventCountsAgree c.toChunk timeline tc ↔
      (∃ component, (c.components.lookup component).isSome) ∨ c.toChunk.rows = [] := by
  rw [← components_ne_nil_iff, ← unsorted_countsEvents_iff c.wf htc]
  constructor
  · intro h
    exact h.unsorted
  · intro h
    exact ⟨h, sorted_countsEvents c.wf htc, fun hs => (sorted_countsEvents c.wf htc hs).unique h⟩

def bareChunk : ValidChunk where
  toChunk := ofColumns 1 ⟨["robot"]⟩ 0 [1, 2] [(⟨"frame"⟩, [6, 5].map I64.sat)] []
  sane := rfl

def columnedChunk : ValidChunk where
  toChunk := ofColumns 1 ⟨["robot"]⟩ 0 [1, 2] [(⟨"frame"⟩, [6, 5].map I64.sat)] [(⟨"position"⟩, [some [], none])]
  sane := rfl

/-- On a chunk with a component column the two ways agree. -/
theorem eventCounts_agree_iff_columned : ∃ tc, columnedChunk.timelines.lookup ⟨"frame"⟩ = some tc ∧
    (EventCountsAgree columnedChunk.toChunk ⟨"frame"⟩ tc ↔
      (∃ component, (columnedChunk.components.lookup component).isSome) ∨ columnedChunk.toChunk.rows = []) :=
  ⟨_, rfl, eventCounts_agree_iff columnedChunk ⟨"frame"⟩ _ rfl⟩

theorem bareChunk_counts : bareChunk.toChunk.numEventsCumulativePerUniqueTime ⟨"frame"⟩ = [] := by
  have hunsorted : bareChunk.toChunk.numEventsCumulativePerUniqueTime ⟨"frame"⟩ =
      ([] : List (TimeInt × Nat)).mergeSort fun a b => decide (a.1 ≤ b.1) := rfl
  exact mergeSort_nil

/-- Without component columns no time is listed, while the walk would list both. -/
theorem bareChunk_not_agree : bareChunk.toChunk.numEventsCumulativePerUniqueTime ⟨"frame"⟩ = [] ∧
    ¬ ∀ (c : ValidChunk) timeline tc, c.timelines.lookup timeline = some tc →
      EventCountsAgree c.toChunk timeline tc := by
  refine ⟨bareChunk_counts, ?_⟩
  intro h
  have hcounts := (h bareChunk ⟨"frame"⟩ _ rfl).unsorted
  have hlisted : (⟨I64.sat 6⟩, 0) ∈ bareChunk.toChunk.numEventsCumulativePerUniqueTime ⟨"frame"⟩ :=
    (hcounts.mem ⟨I64.sat 6⟩ 0).mpr ⟨⟨bareChunk.toChunk.rowAt 0 1, mem_cons_self, rfl⟩, rfl⟩
  rw [bareChunk_counts] at hlisted
  exact absurd hlisted not_mem_nil

end Chunk

end Dalaran
