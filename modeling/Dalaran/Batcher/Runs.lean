import Dalaran.Batcher.PendingRow

/-
  Which rows end up in one chunk.

  `runs` cuts the rows of a group before a row that finds enough rows at hand and
  one of its timelines out of order among them. The columns that the source's loop
  builds are, run by run, the columns of the rows of the run (`intoColumns_runs`).
-/

namespace Dalaran

open List Option TimeInt Assoc PendingTimeColumn

/-! ## Time columns -/

namespace PendingTimeColumn

def ofTimes (timeline : Timeline) (times : List I64) : PendingTimeColumn :=
  times.foldl (fun column t => column.push ⟨t⟩) (new timeline)

theorem ofTimes_append (timeline : Timeline) (times : List I64) (t : I64) :
    ofTimes timeline (times ++ [t]) = (ofTimes timeline times).push ⟨t⟩ := by
  simp [ofTimes]

@[simp] theorem ofTimes_timeline (timeline : Timeline) (times : List I64) :
    (ofTimes timeline times).timeline = timeline := by
  induction times using reverseRecOn with
  | nil => rfl
  | append_singleton times t ih => rw [ofTimes_append, push, ih]

@[simp] theorem ofTimes_times (timeline : Timeline) (times : List I64) : (ofTimes timeline times).times = times := by
  induction times using reverseRecOn with
  | nil => rfl
  | append_singleton times t ih => rw [ofTimes_append, push, ih]

theorem MIN_le_of_ne {t : I64} (h : t ≠ I64.MIN) : TimeInt.MIN.asI64 ≤ t := by
  rw [I64.le_def, MIN_val]
  have hne : t.val ≠ -9223372036854775808 := fun hv => h (I64.val_injective hv)
  have := t.lo
  omega

theorem ascending_push {l : List I64} {t lo : I64} (hlo : lo ≤ t) :
    Seq.ascending (l ++ [t]) = (Seq.ascending l && decide (l.getLast?.getD lo ≤ t)) := by
  rw [Bool.eq_iff_iff, Seq.ascending_append, Bool.and_eq_true, decide_eq_true_iff]
  constructor
  · intro h
    obtain ⟨hl, -, hle⟩ := h
    refine ⟨hl, ?_⟩
    cases hlast : l.getLast? with
    | none => exact hlo
    | some a => exact hle a (mem_of_getLast? hlast) t (mem_singleton.mpr rfl)
  · intro h
    obtain ⟨hl, hle⟩ := h
    refine ⟨hl, rfl, ?_⟩
    intro a ha b hb
    obtain rfl := mem_singleton.mp hb
    cases hlast : l.getLast? with
    | none =>
      rw [List.getLast?_eq_none_iff] at hlast
      subst hlast
      cases ha
    | some c =>
      rw [hlast] at hle
      exact (Seq.le_getLast?_of_ascending hl hlast ha).trans hle

variable {times : List I64}

theorem ofTimes_isSorted (timeline : Timeline) (h : ∀ t ∈ times, t ≠ I64.MIN) :
    (ofTimes timeline times).isSorted = Seq.ascending times := by
  induction times using reverseRecOn with
  | nil => rfl
  | append_singleton times t ih =>
    have ih := ih fun s hs => h s (mem_append_left _ hs)
    have ht := MIN_le_of_ne (h t (mem_append_right _ (mem_singleton.mpr rfl)))
    rw [ofTimes_append, push, ih, ofTimes_times, ascending_push ht]

theorem ofTimes_timeRange (timeline : Timeline) (h : ∀ t ∈ times, t ≠ I64.MIN) :
    let range := (ofTimes timeline times).timeRange
    (if times = [] then range = .EMPTY else range.min.asI64 ∈ times ∧ range.max.asI64 ∈ times) ∧
      ∀ t ∈ times, range.min.asI64 ≤ t ∧ t ≤ range.max.asI64 := by
  induction times using reverseRecOn with
  | nil => exact ⟨rfl, fun _ ht => absurd ht not_mem_nil⟩
  | append_singleton times t ih =>
    have hmin := MIN_le_of_ne (h t (mem_append_right _ (mem_singleton.mpr rfl)))
    have hmin : MIN ≤ ⟨t⟩ := hmin
    obtain ⟨hends, hall⟩ := ih fun s hs => h s (mem_append_left _ hs)
    generalize hrange : (ofTimes timeline times).timeRange = range at *
    -- the ends are temporal times already
    have hlo : MIN ≤ range.min := by
      split at hends
      · rw [hends]
        decide
      · exact MIN_le_of_ne (h _ (mem_append_left _ hends.1))
    have hhi : MIN ≤ max range.max ⟨t⟩ := le_max_of_le_right hmin
    simp only [ofTimes_append, push, hrange]
    rw [saturatedTemporal_of_le (le_min hlo hmin), saturatedTemporal_of_le hhi, if_neg (by simp)]
    have hle : (min range.min ⟨t⟩).asI64 ≤ t := min_le_right range.min (⟨t⟩ : TimeInt)
    have hge : t ≤ (max range.max ⟨t⟩).asI64 := le_max_right range.max (⟨t⟩ : TimeInt)
    refine ⟨⟨?_, ?_⟩, ?_⟩
    · rcases min_choice range.min ⟨t⟩ with heq | heq
      · rw [heq]
        split at hends
        · -- nothing is greater than `MAX`
          have ht : MAX ≤ ⟨t⟩ := by
            rw [hends] at heq
            exact min_eq_left_iff.mp heq
          rw [hends]
          have := le_antisymm ht (le_MAX _)
          exact mem_append_right _ (mem_singleton.mpr (congrArg asI64 this))
        · exact mem_append_left _ hends.1
      · rw [heq]
        exact mem_append_right _ (mem_singleton.mpr rfl)
    · rcases max_choice range.max ⟨t⟩ with heq | heq
      · rw [heq]
        split at hends
        · have ht : (⟨t⟩ : TimeInt) ≤ MIN := by
            rw [hends] at heq
            exact max_eq_left_iff.mp heq
          rw [hends]
          have := le_antisymm hmin ht
          exact mem_append_right _ (mem_singleton.mpr (congrArg asI64 this))
        · exact mem_append_left _ hends.2
      · rw [heq]
        exact mem_append_right _ (mem_singleton.mpr rfl)
    · intro s hs
      rcases mem_append.mp hs with hs | hs
      · obtain ⟨h₁, h₂⟩ := hall s hs
        exact ⟨(min_le_left range.min (⟨t⟩ : TimeInt)).trans h₁, h₂.trans (le_max_left range.max (⟨t⟩ : TimeInt))⟩
      · obtain rfl := mem_singleton.mp hs
        exact ⟨hle, hge⟩

theorem ofTimes_wellFormed (timeline : Timeline) (h : ∀ t ∈ times, t ≠ I64.MIN) :
    (ofTimes timeline times).finish.WellFormed := by
  obtain ⟨hends, hall⟩ := ofTimes_timeRange timeline h
  have htimes : (ofTimes timeline times).finish.times = times := ofTimes_times timeline times
  constructor
  · rw [htimes]
    exact ofTimes_isSorted timeline h
  · rw [htimes]
    intro hne
    rw [if_neg hne] at hends
    exact hends.1
  · rw [htimes]
    intro hne
    rw [if_neg hne] at hends
    exact hends.2
  · rw [htimes]
    exact fun t ht => (hall t ht).1
  · rw [htimes]
    exact fun t ht => (hall t ht).2
  · rw [htimes]
    exact h

end PendingTimeColumn

/-! ## Runs -/

namespace PendingRow

def timeOn (row : PendingRow) (name : TimelineName) : Option I64 :=
  (row.timepoint.cells.lookup name).map (·.value)

def timesOn (name : TimelineName) (rows : List PendingRow) : List I64 := rows.filterMap (·.timeOn name)

def outOfOrder (names : List TimelineName) (rows : List PendingRow) : Bool :=
  names.any fun name => !Seq.ascending (timesOn name rows)

/-- The rows of one chunk after the other, with the rows at hand in front. -/
def runs (chunkMaxRowsIfUnsorted : UInt64) : List PendingRow → List PendingRow → List (List PendingRow)
  | run, [] => [run]
  | run, row :: rows =>
    if !run.isEmpty && decide (chunkMaxRowsIfUnsorted.toNat ≤ run.length) &&
        outOfOrder row.timepoint.timelineNames run then
      run :: runs chunkMaxRowsIfUnsorted [row] rows
    else runs chunkMaxRowsIfUnsorted (run ++ [row]) rows

theorem runs_flatten (n : UInt64) : ∀ (rows run : List PendingRow), (runs n run rows).flatten = run ++ rows
  | [], run => by simp [runs]
  | row :: rows, run => by
    unfold runs
    split
    · rw [flatten_cons, runs_flatten n rows]
      simp
    · rw [runs_flatten n rows]
      simp

theorem timesOn_append (name : TimelineName) (rows : List PendingRow) (row : PendingRow) :
    timesOn name (rows ++ [row]) = timesOn name rows ++ (row.timeOn name).toList := by
  unfold timesOn
  cases h : row.timeOn name <;> simp [h]

theorem timesOn_temporal (name : TimelineName) (rows : List PendingRow) : ∀ t ∈ timesOn name rows, t ≠ I64.MIN := by
  intro t ht
  obtain ⟨row, -, hrow⟩ := mem_filterMap.mp ht
  obtain ⟨cell, -, rfl⟩ := map_eq_some_iff.mp hrow
  exact cell.nonMin

end PendingRow

/-! ## The columns of a run -/

namespace PendingColumns

open PendingRow

variable {all : PendingComponents} {n : UInt64}

/-- The columns at hand are those of a run, whose first row gave the timelines their types. -/
structure Holds (all : PendingComponents) (columns : PendingColumns)
    (first : PendingRow) (run : List PendingRow) : Prop where
  head : run.head? = some first
  rowIds : columns.rowIds = run.map (·.rowId)
  timelines : ∀ name, columns.timelines.lookup name = (first.timepoint.cells.lookup name).map fun cell =>
    .ofTimes ⟨name, cell.typ⟩ (timesOn name run)
  components : ∀ component, columns.components.lookup component = (all.lookup component).map fun column =>
    (column.1, run.map (·.arrayOf component))

/-- No row is at hand, and the time columns are new ones for timelines of the next row. -/
structure Fresh (all : PendingComponents) (columns : PendingColumns)
    (row : PendingRow) : Prop where
  rowIds : columns.rowIds = []
  timelines : ∀ name column, columns.timelines.lookup name = some column →
    ∃ cell, row.timepoint.cells.lookup name = some cell ∧ column = .new ⟨name, cell.typ⟩
  components : columns.components = all

def NoArrays (all : PendingComponents) : Prop := ∀ component column, all.lookup component = some column → column.2 = []

theorem fresh_nil (all : PendingComponents) (row : PendingRow) : Fresh all ⟨[], ∅, all⟩ row where
  rowIds := rfl
  timelines := by
    intro name column h
    cases h
  components := rfl

theorem lookForUnsorted_fresh (n : UInt64) (row : PendingRow) : ∀ (l : List (TimelineName × TimeCell)) {columns : PendingColumns}
    (done : List PendingColumns), (∀ e ∈ l, row.timepoint.cells.lookup e.1 = some e.2) → Fresh all columns row →
      ∃ columns', Fresh all columns' row ∧ l.foldl (lookForUnsorted n all) (columns, done) = (columns', done)
  | [], columns, done, _, hfresh => ⟨columns, hfresh, rfl⟩
  | e :: l, columns, done, hl, hfresh => by
    have hstep : lookForUnsorted n all (columns, done) e =
        ({ columns with timelines := Assoc.orInsert columns.timelines e.1 (.new ⟨e.1, e.2.typ⟩) }, done) := by
      simp [lookForUnsorted, hfresh.rowIds]
    rw [foldl_cons, hstep]
    refine lookForUnsorted_fresh n row l done (fun e' he' => hl e' (mem_cons_of_mem _ he')) ⟨hfresh.rowIds, ?_, hfresh.components⟩
    intro name column h
    dsimp only at h
    rw [lookup_orInsert] at h
    split at h
    · rename_i heq
      subst heq
      cases hcol : columns.timelines.lookup e.1 with
      | some c =>
        rw [hcol] at h
        exact hfresh.timelines e.1 column (hcol.trans h)
      | none =>
        rw [hcol] at h
        exact ⟨e.2, hl e mem_cons_self, (some.inj h).symm⟩
    · exact hfresh.timelines name column h

theorem lookForUnsorted_holds (n : UInt64) (row : PendingRow) {first : PendingRow} {run : List PendingRow} :
    ∀ (l : List (TimelineName × TimeCell)) {columns : PendingColumns} (done : List PendingColumns),
      (∀ e ∈ l, row.timepoint.cells.lookup e.1 = some e.2) → (∀ e ∈ l, (first.timepoint.cells.lookup e.1).isSome) →
      Holds all columns first run →
        if n.toNat ≤ run.length ∧ outOfOrder (l.map Prod.fst) run = true then
          ∃ columns', Fresh all columns' row ∧
            l.foldl (lookForUnsorted n all) (columns, done) = (columns', done ++ [columns])
        else l.foldl (lookForUnsorted n all) (columns, done) = (columns, done)
  | [], columns, done, _, _, _ => by simp [outOfOrder]
  | e :: l, columns, done, hl, hfirst, hholds => by
    obtain ⟨cell, hcell⟩ := isSome_iff_exists.mp (hfirst e mem_cons_self)
    have hcol := hholds.timelines e.1
    rw [hcell, map_some] at hcol
    have hsorted := ofTimes_isSorted ⟨e.1, cell.typ⟩ (timesOn_temporal e.1 run)
    have hne : columns.rowIds.isEmpty = false := by
      rw [hholds.rowIds, isEmpty_map]
      cases hrun : run with
      | nil =>
        have hhead := hholds.head
        rw [hrun] at hhead
        cases hhead
      | cons _ _ => rfl
    have hlen : columns.rowIds.length = run.length := by rw [hholds.rowIds, length_map]
    have hstep : lookForUnsorted n all (columns, done) e =
        if n.toNat ≤ run.length ∧ Seq.ascending (timesOn e.1 run) = false then (⟨[], ∅, all⟩, done ++ [columns])
        else (columns, done) := by
      unfold lookForUnsorted
      dsimp only
      rw [orInsert_of_some _ hcol, hcol, getD_some, hsorted, hne, hlen]
      simp
    rw [foldl_cons]
    have hl' := fun e' he' => hl e' (mem_cons_of_mem _ he')
    have ih := lookForUnsorted_holds n row l done hl' (fun e' he' => hfirst e' (mem_cons_of_mem _ he')) hholds
    by_cases hlong : n.toNat ≤ run.length
    · by_cases hasc : Seq.ascending (timesOn e.1 run) = true
      · have hout : outOfOrder ((e :: l).map Prod.fst) run = outOfOrder (l.map Prod.fst) run := by
          simp [outOfOrder, hasc]
        rw [if_neg (by simp [hasc])] at hstep
        rw [hstep, hout]
        exact ih
      · rw [Bool.not_eq_true] at hasc
        have hout : outOfOrder ((e :: l).map Prod.fst) run = true := by simp [outOfOrder, hasc]
        rw [if_pos ⟨hlong, hasc⟩] at hstep
        rw [if_pos ⟨hlong, hout⟩, hstep]
        exact lookForUnsorted_fresh n row l _ hl' (fresh_nil all row)
    · rw [if_neg fun h => hlong h.1] at hstep ih ⊢
      rw [hstep]
      exact ih

theorem lookup_pushRow_timelines (columns : PendingColumns) (row : PendingRow) (name : TimelineName) :
    (columns.pushRow row).timelines.lookup name =
      (row.timepoint.cells.lookup name).elim (columns.timelines.lookup name) fun cell =>
        some (((columns.timelines.lookup name).getD (.new ⟨name, cell.typ⟩)).push ⟨cell.value⟩) :=
  lookup_upsertAll _ _ _ _ _

theorem pushRow_fresh {columns : PendingColumns} {row : PendingRow}
    (hall : NoArrays all) (h : Fresh all columns row) :
    Holds all (columns.pushRow row) row [row] where
  head := rfl
  rowIds := by simp [pushRow, h.rowIds]
  timelines := by
    intro name
    rw [lookup_pushRow_timelines]
    cases hcell : row.timepoint.cells.lookup name with
    | some cell =>
      have htimes : timesOn name [row] = [cell.value] := by simp [timesOn, timeOn, hcell]
      have hcol : (columns.timelines.lookup name).getD (.new ⟨name, cell.typ⟩) =
          PendingTimeColumn.new ⟨name, cell.typ⟩ := by
        cases hcol : columns.timelines.lookup name with
        | none => rfl
        | some column =>
          obtain ⟨cell', hcell', rfl⟩ := h.timelines name column hcol
          obtain rfl := mem_unique hcell hcell'
          rfl
      rw [map_some, htimes, elim_some, hcol]
      rfl
    | none =>
      cases hcol : columns.timelines.lookup name with
      | none => rfl
      | some column =>
        obtain ⟨cell, hcell', -⟩ := h.timelines name column hcol
        cases hcell.symm.trans hcell'
  components := by
    intro component
    have hmap : (columns.pushRow row).components.lookup component =
        (all.lookup component).map fun column => (column.1, column.2 ++ [row.arrayOf component]) := by
      rw [← h.components]
      exact lookup_map _ _ _
    rw [hmap]
    cases hcol : all.lookup component with
    | none => rfl
    | some column => simp [hall component column hcol]

theorem lookup_isSome_of_names {a b : PendingRow} (h : a.timepoint.timelineNames = b.timepoint.timelineNames)
    (name : TimelineName) : (a.timepoint.cells.lookup name).isSome = (b.timepoint.cells.lookup name).isSome := by
  rw [Bool.eq_iff_iff, AList.lookup_isSome, AList.lookup_isSome, AList.mem_keys, AList.mem_keys]
  exact iff_of_eq (congrArg (name ∈ ·) h)

theorem pushRow_holds {columns : PendingColumns} {first row : PendingRow} {run : List PendingRow}
    (hnames : row.timepoint.timelineNames = first.timepoint.timelineNames) (h : Holds all columns first run) :
    Holds all (columns.pushRow row) first (run ++ [row]) where
  head := by simp [h.head]
  rowIds := by simp [pushRow, h.rowIds]
  timelines := by
    intro name
    have hsome := lookup_isSome_of_names hnames name
    rw [lookup_pushRow_timelines, h.timelines, timesOn_append]
    cases hfirst : first.timepoint.cells.lookup name with
    | some cell =>
      rw [hfirst, isSome_some, isSome_iff_exists] at hsome
      obtain ⟨cell', hcell'⟩ := hsome
      have htime : row.timeOn name = some cell'.value := by simp [timeOn, hcell']
      rw [hcell', htime, toList_some, elim_some, map_some, map_some, getD_some, ofTimes_append]
    | none =>
      rw [hfirst, isSome_none, isSome_eq_false_iff, isNone_iff_eq_none] at hsome
      rw [hsome]
      rfl
  components := by
    intro component
    have hmap : (columns.pushRow row).components.lookup component =
        (columns.components.lookup component).map fun column => (column.1, column.2 ++ [row.arrayOf component]) :=
      lookup_map _ _ _
    rw [hmap, h.components]
    cases all.lookup component <;> simp

/-! ## The loop over a group -/

/-- The columns of a run, whichever row comes first in it. -/
def IsRun (all : PendingComponents) (columns : PendingColumns)
    (run : List PendingRow) : Prop :=
  ∃ first, Holds all columns first run

theorem foldl_runs (hall : NoArrays all) :
    ∀ (rows : List PendingRow) {columns : PendingColumns} (done : List PendingColumns) {first : PendingRow}
      {run : List PendingRow}, Holds all columns first run →
      (∀ row ∈ rows, row.timepoint.timelineNames = first.timepoint.timelineNames) →
      let s := rows.foldl (fun s row =>
        let s := (Assoc.toList row.timepoint.cells).foldl (lookForUnsorted n all) s
        (s.1.pushRow row, s.2)) (columns, done)
      ∃ made, s.2 ++ [s.1] = done ++ made ∧ Forall₂ (IsRun all) made (runs n run rows)
  | [], columns, done, first, run, hholds, _ => ⟨[columns], rfl, .cons ⟨first, hholds⟩ .nil⟩
  | row :: rows, columns, done, first, run, hholds, hnames => by
    have hrow := hnames row mem_cons_self
    have hrows := fun row' hrow' => hnames row' (mem_cons_of_mem _ hrow')
    have hkeys : (Assoc.toList row.timepoint.cells).map Prod.fst = row.timepoint.timelineNames := by
      simp [Assoc.toList, TimePoint.timelineNames, AList.keys, List.keys, Function.comp_def]
    have hlook := lookForUnsorted_holds n row (Assoc.toList row.timepoint.cells) done
      (fun e he => mem_toList.mp he)
      (fun e he => by
        rw [← lookup_isSome_of_names hrow, mem_toList.mp he]
        rfl) hholds
    have hne : run.isEmpty = false := by
      cases hrun : run with
      | nil =>
        have hhead := hholds.head
        rw [hrun] at hhead
        cases hhead
      | cons _ _ => rfl
    rw [hkeys] at hlook
    dsimp only [foldl_cons]
    unfold runs
    split at hlook
    · rename_i hcut
      obtain ⟨columns', hfresh, hfold⟩ := hlook
      rw [hfold, if_pos (by simp [hne, hcut.1, hcut.2])]
      obtain ⟨made, hmade, hruns⟩ := foldl_runs hall rows (done ++ [columns]) (pushRow_fresh hall hfresh)
        fun row' hrow' => (hrows row' hrow').trans hrow.symm
      refine ⟨columns :: made, ?_, .cons ⟨first, hholds⟩ hruns⟩
      rw [hmade, append_assoc, singleton_append]
    · rename_i hcut
      rw [hlook, if_neg (by simpa [hne] using hcut)]
      exact foldl_runs hall rows done (pushRow_holds hrow hholds) hrows

theorem orInsertAll : ∀ (l : List (ComponentIdentifier × SerializedComponentBatch)) (all : PendingComponents),
    NoArrays all → NoArrays (l.foldl (fun all e => Assoc.orInsert all e.1 (e.2.archetype, [])) all) ∧
      ∀ component, ((l.foldl (fun all e => Assoc.orInsert all e.1 (e.2.archetype, [])) all).lookup component).isSome ↔
        (all.lookup component).isSome ∨ component ∈ l.map Prod.fst
  | [], all, hall => ⟨hall, fun component => by simp⟩
  | e :: l, all, hall => by
    have hnext : NoArrays (Assoc.orInsert all e.1 (e.2.archetype, [])) := by
      intro component column h
      rw [lookup_orInsert] at h
      split at h
      · cases hcol : all.lookup e.1 with
        | none =>
          rw [hcol] at h
          rw [← some.inj h]
          rfl
        | some c =>
          rw [hcol] at h
          exact hall e.1 column (hcol.trans h)
      · exact hall component column h
    obtain ⟨h₁, h₂⟩ := orInsertAll l _ hnext
    refine ⟨h₁, ?_⟩
    intro component
    rw [foldl_cons, h₂ component, lookup_orInsert, map_cons, mem_cons]
    by_cases heq : component = e.1
    · simp [heq]
    · simp [heq]

theorem allComponents_noArrays (rows : List PendingRow) : NoArrays (allComponents rows) := by
  unfold allComponents
  rw [← foldl_flatMap]
  refine (orInsertAll _ ∅ ?_).1
  intro component column h
  cases h

theorem mem_allComponents {rows : List PendingRow} {component : ComponentIdentifier} :
    ((allComponents rows).lookup component).isSome ↔ ∃ row ∈ rows, (row.arrayOf component).isSome := by
  unfold allComponents
  rw [← foldl_flatMap, (orInsertAll _ ∅ (fun component column h => by cases h)).2 component]
  simp only [AList.lookup_empty, isSome_none, Bool.false_eq_true, false_or, List.mem_map, mem_flatMap,
    Prod.exists, exists_and_right, exists_eq_right, arrayOf, isSome_map, isSome_iff_exists]
  constructor
  · intro h
    obtain ⟨batch, row, hrow, hmem⟩ := h
    exact ⟨row, hrow, batch, mem_toList.mp hmem⟩
  · intro h
    obtain ⟨row, hrow, batch, hmem⟩ := h
    exact ⟨batch, row, hrow, mem_toList.mpr hmem⟩

theorem intoColumns_runs {row : PendingRow} {rows : List PendingRow}
    (hnames : ∀ row' ∈ rows, row'.timepoint.timelineNames = row.timepoint.timelineNames) :
    Forall₂ (IsRun (allComponents (row :: rows))) (intoColumns n (row :: rows)) (runs n [] (row :: rows)) := by
  have hall := allComponents_noArrays (row :: rows)
  obtain ⟨columns', hfresh, hfold⟩ := lookForUnsorted_fresh n row (Assoc.toList row.timepoint.cells) []
    (fun e he => mem_toList.mp he) (fresh_nil (allComponents (row :: rows)) row)
  obtain ⟨made, hmade, hruns⟩ := foldl_runs (n := n) hall rows [] (pushRow_fresh hall hfresh) hnames
  have hcols : intoColumns n (row :: rows) = [] ++ made := by
    rw [← hmade]
    unfold intoColumns
    dsimp only [foldl_cons]
    rw [hfold]
  rw [hcols]
  exact hruns

end PendingColumns

end Dalaran
