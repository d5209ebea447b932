import Dalaran.Batcher.Runs

/-
  The chunk of a run, row by row.

  A chunk read back row by row (`Chunk.loggedRows`) gives the rows that it was made
  from, with their times, time types and arrays, exactly if the run is `Uniform`:
  its rows agree on the type of every timeline and on the datatype of every
  component, arrow can concatenate the arrays of each, and no component has more
  values than a list array can hold (`RunColumns.faithful_iff`). On other runs a
  chunk is made as well, but the time column takes the type of the first row, and
  a component whose arrays are not concatenated has no column at all.
-/

namespace Dalaran

open List Option Assoc PendingTimeColumn

/-! ## Rows as they are logged -/

structure LoggedRow where
  entityPath : EntityPath
  rowId : RowId
  timepoint : TimelineName → Option (TimeType × I64)
  cells : ComponentIdentifier → Option ArrowArray

def PendingRow.logged (entityPath : EntityPath) (row : PendingRow) : LoggedRow where
  entityPath := entityPath
  rowId := row.rowId
  timepoint := fun name => (row.timepoint.cells.lookup name).map fun cell => (cell.typ, cell.value)
  cells := row.arrayOf

def Chunk.loggedAt (c : Chunk) (i : Nat) (rowId : RowId) : LoggedRow where
  entityPath := c.entityPath
  rowId := rowId
  timepoint := fun name => (c.timelines.lookup name).bind fun tc => (tc.times[i]?).map fun t => (tc.timeline.typ, t)
  cells := fun component => (c.components.lookup component).bind fun column =>
    ((column.listArray.cells[i]?).join).map fun cell => ⟨column.listArray.dataType, cell⟩

def Chunk.loggedRows (c : Chunk) : List LoggedRow := c.rowIds.mapIdx c.loggedAt

/-- Two rows agree on the types of the timelines and components that both have. -/
structure Agree (a b : PendingRow) : Prop where
  timeTypes : ∀ name x y, a.timepoint.cells.lookup name = some x → b.timepoint.cells.lookup name = some y → x.typ = y.typ
  dataTypes : ∀ component x y, a.arrayOf component = some x → b.arrayOf component = some y → x.dataType = y.dataType

/-- The arrays that the rows have of a component, if any, can be concatenated. -/
def Joins (concatFails : List ArrowArray → Bool) (component : ComponentIdentifier) (run : List PendingRow) : Prop :=
  run.filterMap (·.arrayOf component) ≠ [] → concatFails (run.filterMap (·.arrayOf component)) = false

/-- The rows of a run agree on the types of their timelines and components, whose arrays can be concatenated,
and no component is too long for a list array. -/
structure Uniform (concatFails : List ArrowArray → Bool) (run : List PendingRow) : Prop where
  agree : ∀ a ∈ run, ∀ b ∈ run, Agree a b
  joins : ∀ component, Joins concatFails component run
  short : ∀ component, (run.map fun row => (row.arrayOf component).elim 0 (·.values.length)).sum ≤ I32_MAX

/-! ## List arrays -/

def OneType (arrays : List (Option ArrowArray)) : Prop :=
  ∀ x y, some x ∈ arrays → some y ∈ arrays → x.dataType = y.dataType

def totalLength (arrays : List (Option ArrowArray)) : Nat := (arrays.map fun a => a.elim 0 (·.values.length)).sum

structure Collects (concatFails : List ArrowArray → Bool) (a : ListArray) (arrays : List (Option ArrowArray)) :
    Prop where
  oneType : OneType arrays
  joins : arrays.filterMap id ≠ [] → concatFails (arrays.filterMap id) = false
  short : totalLength arrays ≤ I32_MAX
  dataType : ∀ x, some x ∈ arrays → a.dataType = x.dataType
  cells : a.cells = arrays.map (Option.map (·.values))

variable {concatFails : List ArrowArray → Bool}

theorem concatArrays_cons {a : ArrowArray} {arrays : List ArrowArray} :
    concatArrays concatFails (a :: arrays) =
      if (∀ b ∈ arrays, b.dataType = a.dataType) ∧ concatFails (a :: arrays) = false then
      some ⟨a.dataType, (a :: arrays).flatMap (·.values)⟩ else none := by
  unfold concatArrays
  simp

theorem mem_filterMap_id {arrays : List (Option ArrowArray)} {x : ArrowArray} :
    x ∈ arrays.filterMap id ↔ some x ∈ arrays := by
  simp [mem_filterMap]

theorem dense_flatMap (arrays : List (Option ArrowArray)) :
    (arrays.filterMap id).flatMap (·.values) = (arrays.map fun a => a.elim [] (·.values)).flatten := by
  induction arrays with
  | nil => rfl
  | cons a arrays ih =>
    cases a with
    | none => exact ih
    | some x =>
      have hcons : (some x :: arrays).filterMap id = x :: arrays.filterMap id := rfl
      rw [hcons, flatMap_cons, ih]
      rfl

theorem arraysToListArrayOpt_cases (concatFails : List ArrowArray → Bool) (arrays : List (Option ArrowArray)) :
    (arraysToListArrayOpt concatFails arrays = .ok none ∧ ((∀ x, some x ∉ arrays) ∨ ¬ OneType arrays ∨
        arrays.filterMap id ≠ [] ∧ concatFails (arrays.filterMap id) = true)) ∨
      (arraysToListArrayOpt concatFails arrays = .error .offsetOverflow ∧ I32_MAX < totalLength arrays) ∨
      ∃ a, arraysToListArrayOpt concatFails arrays = .ok (some a) ∧ Collects concatFails a arrays := by
  cases hdense : arrays.filterMap id with
  | nil =>
    refine .inl ⟨by simp only [arraysToListArrayOpt, hdense], .inl ?_⟩
    intro x hx
    have := mem_filterMap_id.mpr hx
    rw [hdense] at this
    cases this
  | cons first rest =>
    have hfirst : some first ∈ arrays := mem_filterMap_id.mp (hdense ▸ mem_cons_self)
    have hopt : arraysToListArrayOpt concatFails arrays = arraysToListArray concatFails first.dataType arrays := by
      simp only [arraysToListArrayOpt, hdense]
    rw [hopt]
    by_cases htypes : (∀ b ∈ rest, b.dataType = first.dataType) ∧ concatFails (first :: rest) = false
    · have hall : ∀ x, some x ∈ arrays → x.dataType = first.dataType := by
        intro x hx
        have hx := mem_filterMap_id.mpr hx
        rw [hdense] at hx
        rcases mem_cons.mp hx with rfl | hx
        · rfl
        · exact htypes.1 x hx
      have hone : OneType arrays := fun x y hx hy => (hall x hx).trans (hall y hy).symm
      by_cases hlong : I32_MAX < totalLength arrays
      · refine .inr (.inl ⟨?_, hlong⟩)
        unfold totalLength at hlong
        simp only [arraysToListArray, hdense, isEmpty_cons, Bool.false_eq_true, if_false, concatArrays_cons,
          if_pos htypes, offsetsFromLengths, if_pos hlong, bind, Except.bind]
      · refine .inr (.inr ?_)
        have hlens : (arrays.map fun a => a.elim 0 (·.values.length)) =
            (arrays.map fun a : Option ArrowArray => a.elim [] (·.values)).map List.length := by
          rw [List.map_map]
          refine map_congr_left ?_
          intro a _
          cases a <;> rfl
        have hvalues : (first :: rest).flatMap (·.values) =
            (arrays.map fun a => a.elim [] (·.values)).flatten ++ [] := by
          rw [← hdense, dense_flatMap, append_nil]
        have hshort : totalLength arrays ≤ I32_MAX := Nat.le_of_not_lt hlong
        unfold totalLength at hlong
        simp only [arraysToListArray, hdense, isEmpty_cons, Bool.false_eq_true, if_false, concatArrays_cons,
          if_pos htypes, offsetsFromLengths, if_neg hlong, bind, Except.bind, pure, Except.pure]
        refine ⟨_, rfl, hone, fun _ => hdense ▸ htypes.2, hshort, fun x hx => (hall x hx).symm, ?_⟩
        simp only [ListArray.cells]
        rw [hvalues, hlens, ListArray.splitLengths_flatten, zipWith_map, zipWith_self, List.map_map]
        refine map_congr_left ?_
        intro a _
        cases a <;> rfl
    · refine .inl ⟨?_, .inr ?_⟩
      · simp only [arraysToListArray, hdense, isEmpty_cons, Bool.false_eq_true, if_false, concatArrays_cons,
          if_neg htypes]
      · by_cases hsame : ∀ b ∈ rest, b.dataType = first.dataType
        · have hfails : concatFails (first :: rest) = true := Bool.eq_true_of_not_eq_false fun h => htypes ⟨hsame, h⟩
          exact .inr ⟨cons_ne_nil _ _, hfails⟩
        · refine .inl fun hone => hsame fun b hb => hone b first (mem_filterMap_id.mp ?_) hfirst
          rw [hdense]
          exact mem_cons_of_mem _ hb

/-! ## The component columns of a chunk -/

namespace PendingColumns

open PendingRow

def columnOf (concatFails : List ArrowArray → Bool) (column : Option String × List (Option ArrowArray)) : Option ComponentColumn :=
  match arraysToListArrayOpt concatFails column.2 with
  | .ok (some listArray) => some ⟨column.1, listArray⟩
  | _ => none

def intoComponentsStep (concatFails : List ArrowArray → Bool) (perComponent : ChunkComponents)
    (e : ComponentIdentifier × Option String × List (Option ArrowArray)) : Except OffsetOverflow ChunkComponents := do
  match ← arraysToListArrayOpt concatFails e.2.2 with
  | some listArray => pure (perComponent.insert e.1 ⟨e.2.1, listArray⟩)
  | none => pure perComponent

theorem intoComponents_eq (components : PendingComponents) :
    intoComponents concatFails components = (Assoc.toList components).foldlM (intoComponentsStep concatFails) ∅ := rfl

theorem intoComponentsStep_ok {perComponent : ChunkComponents}
    {e : ComponentIdentifier × Option String × List (Option ArrowArray)} {r : Option ListArray}
    (h : arraysToListArrayOpt concatFails e.2.2 = .ok r) : ∃ next, intoComponentsStep concatFails perComponent e = .ok next ∧
      ∀ component, next.lookup component =
        if component = e.1 then (columnOf concatFails e.2).or (perComponent.lookup component) else perComponent.lookup component := by
  unfold intoComponentsStep columnOf
  rw [h]
  cases r with
  | none =>
    refine ⟨_, rfl, ?_⟩
    intro component
    split <;> rfl
  | some listArray =>
    refine ⟨_, rfl, ?_⟩
    intro component
    rw [lookup_insert_ite]
    rfl

theorem foldlM_intoComponents : ∀ (l : List (ComponentIdentifier × Option String × List (Option ArrowArray)))
    (perComponent : ChunkComponents), (l.map Prod.fst).Nodup → (∀ e ∈ l, perComponent.lookup e.1 = none) →
    (∀ e ∈ l, ∃ r, arraysToListArrayOpt concatFails e.2.2 = .ok r) →
    ∃ made, l.foldlM (intoComponentsStep concatFails) perComponent = .ok made ∧
      (∀ e ∈ l, made.lookup e.1 = columnOf concatFails e.2) ∧
      ∀ component, component ∉ l.map Prod.fst → made.lookup component = perComponent.lookup component
  | [], perComponent, _, _, _ => ⟨perComponent, rfl, fun e he => absurd he not_mem_nil, fun _ _ => rfl⟩
  | e :: l, perComponent, hnodup, hnone, hok => by
    rw [map_cons] at hnodup
    obtain ⟨hnotin, hnodup⟩ := nodup_cons.mp hnodup
    obtain ⟨r, hr⟩ := hok e mem_cons_self
    obtain ⟨next, hnext, hlookup⟩ := @intoComponentsStep_ok _ perComponent e r hr
    have hother : ∀ e' ∈ l, e'.1 ≠ e.1 := by
      intro e' he' heq
      exact hnotin (List.mem_map.mpr ⟨e', he', heq⟩)
    obtain ⟨made, hmade, hin, hout⟩ := foldlM_intoComponents l next hnodup
      (fun e' he' => by
        rw [hlookup, if_neg (hother e' he')]
        exact hnone e' (mem_cons_of_mem _ he'))
      (fun e' he' => hok e' (mem_cons_of_mem _ he'))
    refine ⟨made, ?_, ?_, ?_⟩
    · rw [foldlM_cons, hnext]
      exact hmade
    · intro e' he'
      rcases mem_cons.mp he' with rfl | he'
      · rw [hout e'.1 hnotin, hlookup, if_pos rfl, hnone e' mem_cons_self, or_none]
      · exact hin e' he'
    · intro component hcomponent
      rw [map_cons, mem_cons, not_or] at hcomponent
      rw [hout component hcomponent.2, hlookup, if_neg hcomponent.1]

theorem intoComponents_ok {components : PendingComponents}
    (hok : ∀ component column, components.lookup component = some column → ∃ r, arraysToListArrayOpt concatFails column.2 = .ok r) :
    ∃ made, intoComponents concatFails components = .ok made ∧
      ∀ component, made.lookup component = (components.lookup component).bind (columnOf concatFails) := by
  obtain ⟨made, hmade, hin, hout⟩ := foldlM_intoComponents (Assoc.toList components) ∅ (toList_fst_nodup components)
    (fun _ _ => rfl) (fun e he => hok e.1 e.2 (mem_toList.mp he))
  refine ⟨made, hmade, ?_⟩
  intro component
  cases hcol : components.lookup component with
  | some column => exact hin (component, column) (mem_toList.mpr hcol)
  | none =>
    refine hout component ?_
    intro hmem
    obtain ⟨⟨c, column⟩, he, rfl⟩ := List.mem_map.mp hmem
    rw [mem_toList.mp he] at hcol
    cases hcol

theorem foldlM_intoComponents_error : ∀ (l : List (ComponentIdentifier × Option String × List (Option ArrowArray)))
    (perComponent : ChunkComponents) {made : ChunkComponents}, l.foldlM (intoComponentsStep concatFails) perComponent = .ok made →
    ∀ e ∈ l, ∃ r, arraysToListArrayOpt concatFails e.2.2 = .ok r
  | e :: l, perComponent, made, h, e', he' => by
    rw [foldlM_cons] at h
    cases hr : arraysToListArrayOpt concatFails e.2.2 with
    | error overflow =>
      have hstep : intoComponentsStep concatFails perComponent e = .error overflow := by
        unfold intoComponentsStep
        rw [hr]
        rfl
      rw [hstep] at h
      cases h
    | ok r =>
      obtain ⟨next, hnext, -⟩ := @intoComponentsStep_ok _ perComponent e r hr
      rw [hnext] at h
      rcases mem_cons.mp he' with rfl | he'
      · exact ⟨r, hr⟩
      · exact foldlM_intoComponents_error l next h e' he'

/-! ## The chunk of a run -/

structure RunColumns (all : PendingComponents) (first : PendingRow) (columns : PendingColumns)
    (run : List PendingRow) : Prop extends Holds all columns first run where
  names : ∀ row ∈ run, row.timepoint.timelineNames = first.timepoint.timelineNames
  covers : ∀ row ∈ run, ∀ component, (row.arrayOf component).isSome → (all.lookup component).isSome
  ascending : Seq.ascending (run.map (·.rowId)) = true

/-- What the chunk of a run looks like. -/
structure IsChunkOf (concatFails : List ArrowArray → Bool) (entityPath : EntityPath) (all : PendingComponents)
    (first : PendingRow) (run : List PendingRow) (chunk : Chunk) : Prop where
  entityPath : chunk.entityPath = entityPath
  rowIds : chunk.rowIds = run.map (·.rowId)
  timelines : ∀ name, chunk.timelines.lookup name = (first.timepoint.cells.lookup name).map fun cell =>
    (PendingTimeColumn.ofTimes ⟨name, cell.typ⟩ (timesOn name run)).finish
  components : ∀ component, chunk.components.lookup component = (all.lookup component).bind fun column =>
    columnOf concatFails (column.1, run.map (·.arrayOf component))

theorem filterMap_getElem? {α β : Type} {f : α → Option β} : ∀ {l : List α}, (∀ a ∈ l, (f a).isSome) → ∀ i : Nat,
    (l.filterMap f)[i]? = (l[i]?).bind f
  | [], _, _ => rfl
  | a :: l, h, i => by
    obtain ⟨b, hb⟩ := isSome_iff_exists.mp (h a mem_cons_self)
    rw [filterMap_cons_some hb]
    cases i with
    | zero => simp [hb]
    | succ i =>
      rw [List.getElem?_cons_succ, List.getElem?_cons_succ]
      exact filterMap_getElem? (fun a' ha' => h a' (mem_cons_of_mem _ ha')) i

section

variable {all : PendingComponents} {first : PendingRow} {columns : PendingColumns} {run : List PendingRow}

variable {name : TimelineName}

theorem RunColumns.timeOn_isSome (h : RunColumns all first columns run) {cell : TimeCell}
    (hcell : first.timepoint.cells.lookup name = some cell) : ∀ row ∈ run, (row.timeOn name).isSome := by
  intro row hrow
  rw [timeOn, isSome_map, lookup_isSome_of_names (h.names row hrow), hcell]
  rfl

theorem RunColumns.timesOn_getElem? (h : RunColumns all first columns run) {cell : TimeCell}
    (hcell : first.timepoint.cells.lookup name = some cell) (i : Nat) :
    (timesOn name run)[i]? = (run[i]?).bind (·.timeOn name) :=
  filterMap_getElem? (h.timeOn_isSome hcell) i

theorem RunColumns.timesOn_length (h : RunColumns all first columns run) {cell : TimeCell}
    (hcell : first.timepoint.cells.lookup name = some cell) : (timesOn name run).length = run.length := by
  exact filterMap_length_eq_length.mpr (h.timeOn_isSome hcell)

theorem columnOf_some {archetype : Option String} {arrays : List (Option ArrowArray)} {column : ComponentColumn}
    (h : columnOf concatFails (archetype, arrays) = some column) : Collects concatFails column.listArray arrays := by
  unfold columnOf at h
  rcases arraysToListArrayOpt_cases concatFails arrays with ⟨hr, -⟩ | ⟨hr, -⟩ | ⟨a, hr, hcollects⟩
  · simp only [hr] at h
    cases h
  · simp only [hr] at h
    cases h
  · simp only [hr] at h
    cases h
    exact hcollects

theorem IsChunkOf.wellFormed {entityPath : EntityPath} {chunk : Chunk} (h : RunColumns all first columns run)
    (hchunk : IsChunkOf concatFails entityPath all first run chunk) (hsorted : chunk.isSorted = true) : chunk.WellFormed := by
  have hrows : chunk.numRows = run.length := by rw [Chunk.numRows, hchunk.rowIds, length_map]
  constructor
  · rw [hsorted, hchunk.rowIds, h.ascending]
  · intro name tc htc
    rw [hchunk.timelines] at htc
    obtain ⟨cell, hcell, rfl⟩ := map_eq_some_iff.mp htc
    rw [hrows, ← h.timesOn_length hcell]
    exact congrArg List.length (ofTimes_times _ _)
  · intro name tc htc
    rw [hchunk.timelines] at htc
    obtain ⟨cell, -, rfl⟩ := map_eq_some_iff.mp htc
    exact ofTimes_wellFormed _ (timesOn_temporal name run)
  · intro component column hcol
    rw [hchunk.components] at hcol
    obtain ⟨pending, -, hcolumn⟩ := bind_eq_some_iff.mp hcol
    rw [← ListArray.cells_length, (columnOf_some hcolumn).cells, hrows, length_map, length_map]

theorem RunColumns.intoChunk (T : Traversal) (id : ChunkId) (entityPath : EntityPath)
    (h : RunColumns all first columns run) (hok : ∀ component, (all.lookup component).isSome →
      ∃ r, arraysToListArrayOpt T.concatFails (run.map (·.arrayOf component)) = .ok r) :
    ∃ chunk, columns.intoChunk T id entityPath = .ok (.ok chunk) ∧ IsChunkOf T.concatFails entityPath all first run chunk := by
  have hok' : ∀ component column, columns.components.lookup component = some column →
      ∃ r, arraysToListArrayOpt T.concatFails column.2 = .ok r := by
    intro component column hcol
    rw [h.components] at hcol
    obtain ⟨pending, hpending, rfl⟩ := map_eq_some_iff.mp hcol
    exact hok component (isSome_of_eq_some hpending)
  obtain ⟨made, hmade, hlookup⟩ := intoComponents_ok hok'
  have hchunk : ∀ chunk : Chunk, chunk.entityPath = entityPath → chunk.rowIds = columns.rowIds →
      chunk.timelines = Assoc.map columns.timelines (fun _ column => column.finish) → chunk.components = made →
      IsChunkOf T.concatFails entityPath all first run chunk := by
    intro chunk hentity hrowIds htimelines hcomponents
    refine ⟨hentity, hrowIds.trans h.rowIds, ?_, ?_⟩
    · intro name
      rw [htimelines, lookup_map, h.timelines, Option.map_map]
      rfl
    · intro component
      rw [hcomponents, hlookup, h.components]
      cases all.lookup component <;> rfl
  unfold PendingColumns.intoChunk
  rw [hmade]
  refine ⟨_, ?_, hchunk ⟨id, entityPath, T.sizeBytes columns.rowIds
    (Assoc.map columns.timelines fun _ column => column.finish) made, true, columns.rowIds,
    Assoc.map columns.timelines fun _ column => column.finish, made⟩ rfl rfl rfl rfl⟩
  have hwf := (hchunk ⟨id, entityPath, T.sizeBytes columns.rowIds
    (Assoc.map columns.timelines fun _ column => column.finish) made, true, columns.rowIds,
    Assoc.map columns.timelines fun _ column => column.finish, made⟩ rfl rfl rfl rfl).wellFormed h rfl
  simp only [bind, Except.bind, pure, Except.pure, Chunk.fromNativeRowIds, Chunk.new, getD_some,
    Chunk.sanityCheck_iff.mpr hwf, Except.map]

/-! ## Reading a chunk back -/

section

variable {entityPath : EntityPath} {chunk : Chunk}

theorem IsChunkOf.loggedRows_getElem? (hchunk : IsChunkOf concatFails entityPath all first run chunk) (i : Nat) :
    chunk.loggedRows[i]? = (run[i]?).map fun row => chunk.loggedAt i row.rowId := by
  unfold Chunk.loggedRows
  rw [List.getElem?_mapIdx, hchunk.rowIds, List.getElem?_map, Option.map_map]
  rfl

variable {row : PendingRow}

theorem IsChunkOf.timepoint (h : RunColumns all first columns run) (hchunk : IsChunkOf concatFails entityPath all first run chunk)
    {i : Nat} (hrow : run[i]? = some row) (rowId : RowId) (name : TimelineName) :
    (chunk.loggedAt i rowId).timepoint name =
      (first.timepoint.cells.lookup name).bind fun cell => (row.timeOn name).map fun t => (cell.typ, t) := by
  unfold Chunk.loggedAt
  dsimp only
  rw [hchunk.timelines]
  cases hcell : first.timepoint.cells.lookup name with
  | none => rfl
  | some cell =>
    rw [map_some, bind_some, bind_some]
    unfold PendingTimeColumn.finish
    dsimp only
    rw [ofTimes_times, ofTimes_timeline, h.timesOn_getElem? hcell, hrow, bind_some]

variable {component : ComponentIdentifier}

theorem IsChunkOf.cells (hchunk : IsChunkOf concatFails entityPath all first run chunk) {i : Nat}
    (hrow : run[i]? = some row) (rowId : RowId) {column : ComponentColumn}
    (hcol : chunk.components.lookup component = some column) :
    (chunk.loggedAt i rowId).cells component = row.arrayOf component := by
  have hcollects : Collects concatFails column.listArray (run.map (·.arrayOf component)) := by
    rw [hchunk.components] at hcol
    obtain ⟨pending, -, hcolumn⟩ := bind_eq_some_iff.mp hcol
    exact columnOf_some hcolumn
  unfold Chunk.loggedAt
  dsimp only
  rw [hcol, bind_some, hcollects.cells, List.map_map, List.getElem?_map, hrow, map_some]
  cases hcell : row.arrayOf component with
  | none => simp [hcell]
  | some x =>
    have hmem : some x ∈ run.map (·.arrayOf component) := List.mem_map.mpr ⟨row, mem_of_getElem? hrow, hcell⟩
    have htype := hcollects.dataType x hmem
    simp [hcell, htype]

theorem dense_arrayOf (run : List PendingRow) (component : ComponentIdentifier) :
    (run.map (·.arrayOf component)).filterMap id = run.filterMap (·.arrayOf component) := filterMap_map ..

theorem columnOf_isSome (hu : Uniform concatFails run) (hrow : row ∈ run)
    (hsome : (row.arrayOf component).isSome) (archetype : Option String) :
    (columnOf concatFails (archetype, run.map (·.arrayOf component))).isSome := by
  obtain ⟨x, hx⟩ := isSome_iff_exists.mp hsome
  rcases arraysToListArrayOpt_cases concatFails (run.map (·.arrayOf component)) with
    ⟨-, hnone | hmixed | ⟨hne, hfails⟩⟩ | ⟨-, hlong⟩ | ⟨a, ha, -⟩
  · exact absurd (List.mem_map.mpr ⟨row, hrow, hx⟩) (hnone x)
  · refine absurd ?_ hmixed
    intro y z hy hz
    obtain ⟨b, hb, hy⟩ := List.mem_map.mp hy
    obtain ⟨c, hc, hz⟩ := List.mem_map.mp hz
    exact (hu.agree b hb c hc).dataTypes component y z hy hz
  · rw [dense_arrayOf] at hne hfails
    rw [hu.joins component hne] at hfails
    cases hfails
  · have hshort := hu.short component
    unfold totalLength at hlong
    rw [List.map_map] at hlong
    exact absurd hshort (Nat.not_le_of_lt hlong)
  · unfold columnOf
    simp [ha]

theorem arraysToListArrayOpt_ok
    (hshort : (run.map fun row => (row.arrayOf component).elim 0 (·.values.length)).sum ≤ I32_MAX) :
    ∃ r, arraysToListArrayOpt concatFails (run.map (·.arrayOf component)) = .ok r := by
  rcases arraysToListArrayOpt_cases concatFails (run.map (·.arrayOf component)) with ⟨hr, -⟩ | ⟨-, hlong⟩ | ⟨a, hr, -⟩
  · exact ⟨_, hr⟩
  · unfold totalLength at hlong
    rw [List.map_map] at hlong
    exact absurd hshort (Nat.not_le_of_lt hlong)
  · exact ⟨_, hr⟩

theorem loggedRows_of_uniform (hu : Uniform concatFails run) (h : RunColumns all first columns run)
    (hchunk : IsChunkOf concatFails entityPath all first run chunk) : chunk.loggedRows = run.map (·.logged entityPath) := by
  apply ext_getElem?
  intro i
  rw [hchunk.loggedRows_getElem?, List.getElem?_map]
  cases hrow : run[i]? with
  | none => rfl
  | some row =>
    have hmem := mem_of_getElem? hrow
    have hfirst := mem_of_mem_head? h.head
    rw [map_some, map_some]
    have htimes : (chunk.loggedAt i row.rowId).timepoint = (row.logged entityPath).timepoint := by
      funext name
      rw [hchunk.timepoint h hrow]
      unfold PendingRow.logged timeOn
      dsimp only
      cases hcell : first.timepoint.cells.lookup name with
      | none =>
        have hsome := lookup_isSome_of_names (h.names row hmem) name
        rw [hcell, isSome_none, isSome_eq_false_iff, isNone_iff_eq_none] at hsome
        rw [hsome]
        rfl
      | some cell =>
        cases hcell' : row.timepoint.cells.lookup name with
        | none => rfl
        | some cell' =>
          rw [bind_some, map_some, map_some, map_some,
            (hu.agree first hfirst row hmem).timeTypes name cell cell' hcell hcell']
    have hcells : (chunk.loggedAt i row.rowId).cells = (row.logged entityPath).cells := by
      funext component
      show (chunk.loggedAt i row.rowId).cells component = row.arrayOf component
      cases hcol : chunk.components.lookup component with
      | some column => exact hchunk.cells hrow row.rowId hcol
      | none =>
        have hnone : (chunk.loggedAt i row.rowId).cells component = none := by
          unfold Chunk.loggedAt
          dsimp only
          rw [hcol]
          rfl
        rw [hnone]
        cases hx : row.arrayOf component with
        | none => rfl
        | some x =>
          have hsome : (row.arrayOf component).isSome := isSome_of_eq_some hx
          obtain ⟨pending, hpending⟩ := isSome_iff_exists.mp (h.covers row hmem component hsome)
          have hcolumn := columnOf_isSome hu hmem hsome pending.1
          rw [hchunk.components, hpending, bind_some] at hcol
          rw [hcol] at hcolumn
          cases hcolumn
    have hentity : (chunk.loggedAt i row.rowId).entityPath = entityPath := hchunk.entityPath
    rw [show row.logged entityPath = ⟨entityPath, row.rowId, (row.logged entityPath).timepoint,
      (row.logged entityPath).cells⟩ from rfl, ← htimes, ← hcells, ← hentity]
    rfl

theorem short_of_collects (h : ∀ row ∈ run, ∀ component x, row.arrayOf component = some x →
      ∃ a, Collects concatFails a (run.map (·.arrayOf component))) (component : ComponentIdentifier) :
    (run.map fun row => (row.arrayOf component).elim 0 (·.values.length)).sum ≤ I32_MAX := by
  by_cases hany : ∃ row ∈ run, ∃ x, row.arrayOf component = some x
  · obtain ⟨row, hmem, x, hx⟩ := hany
    obtain ⟨a, hcollects⟩ := h row hmem component x hx
    have hshort := hcollects.short
    unfold totalLength at hshort
    rwa [List.map_map] at hshort
  · have hzero : (run.map fun row => (row.arrayOf component).elim 0 (·.values.length)).sum = 0 := by
      refine sum_eq_zero ?_
      intro n hn
      obtain ⟨row, hmem, rfl⟩ := List.mem_map.mp hn
      cases hx : row.arrayOf component with
      | none => rfl
      | some x => exact absurd ⟨row, hmem, x, hx⟩ hany
    rw [hzero]
    exact Nat.zero_le _

theorem IsChunkOf.uniform (h : RunColumns all first columns run) (hchunk : IsChunkOf concatFails entityPath all first run chunk)
    (heq : chunk.loggedRows = run.map (·.logged entityPath)) : Uniform concatFails run := by
  have hrow : ∀ row ∈ run, ∃ i : Nat, run[i]? = some row ∧ chunk.loggedAt i row.rowId = row.logged entityPath := by
    intro row hmem
    obtain ⟨i, hi⟩ := mem_iff_getElem?.mp hmem
    have hat := hchunk.loggedRows_getElem? i
    rw [heq, List.getElem?_map, hi, map_some, map_some] at hat
    exact ⟨i, hi, (some.inj hat).symm⟩
  -- the type of a row's time is that of the first row, and its arrays are in a column
  have htype : ∀ row ∈ run, ∀ name x, row.timepoint.cells.lookup name = some x →
      ∃ cell, first.timepoint.cells.lookup name = some cell ∧ x.typ = cell.typ := by
    intro row hmem name x hx
    obtain ⟨i, hi, hat⟩ := hrow row hmem
    have htime := hchunk.timepoint h hi row.rowId name
    rw [hat] at htime
    unfold PendingRow.logged at htime
    dsimp only at htime
    rw [hx, map_some] at htime
    obtain ⟨cell, hcell, heq⟩ := bind_eq_some_iff.mp htime.symm
    obtain ⟨t, -, heq⟩ := map_eq_some_iff.mp heq
    exact ⟨cell, hcell, (congrArg Prod.fst heq).symm⟩
  have hcolumn : ∀ row ∈ run, ∀ component x, row.arrayOf component = some x →
      ∃ column, chunk.components.lookup component = some column := by
    intro row hmem component x hx
    obtain ⟨i, -, hat⟩ := hrow row hmem
    have hcell : (chunk.loggedAt i row.rowId).cells component = some x := by
      rw [hat]
      exact hx
    obtain ⟨column, hcol, -⟩ := bind_eq_some_iff.mp hcell
    exact ⟨column, hcol⟩
  have hcollects : ∀ component column, chunk.components.lookup component = some column →
      Collects concatFails column.listArray (run.map (·.arrayOf component)) := by
    intro component column hcol
    rw [hchunk.components] at hcol
    obtain ⟨pending, -, hcolumn⟩ := bind_eq_some_iff.mp hcol
    exact columnOf_some hcolumn
  refine ⟨?_, ?_, ?_⟩
  · intro a ha b hb
    refine ⟨?_, ?_⟩
    · intro name x y hx hy
      obtain ⟨cell, hcell, hxt⟩ := htype a ha name x hx
      obtain ⟨cell', hcell', hyt⟩ := htype b hb name y hy
      obtain rfl := mem_unique hcell hcell'
      exact hxt.trans hyt.symm
    · intro component x y hx hy
      obtain ⟨column, hcol⟩ := hcolumn a ha component x hx
      exact (hcollects component column hcol).oneType x y (List.mem_map.mpr ⟨a, ha, hx⟩)
        (List.mem_map.mpr ⟨b, hb, hy⟩)
  · intro component hne
    obtain ⟨x, hx⟩ := exists_mem_of_ne_nil _ hne
    obtain ⟨row, hmem, hx⟩ := mem_filterMap.mp hx
    obtain ⟨column, hcol⟩ := hcolumn row hmem component x hx
    have hjoins := (hcollects component column hcol).joins
    rw [dense_arrayOf] at hjoins
    exact hjoins hne
  · refine @short_of_collects concatFails run ?_
    intro row hmem component x hx
    obtain ⟨column, hcol⟩ := hcolumn row hmem component x hx
    exact ⟨column.listArray, hcollects component column hcol⟩

end

section

variable {T : Traversal} {id : ChunkId} {entityPath : EntityPath} {r : Except ChunkError Chunk}

theorem RunColumns.arrays_ok (h : RunColumns all first columns run) (hr : columns.intoChunk T id entityPath = .ok r) :
    ∀ component, (all.lookup component).isSome →
      ∃ r, arraysToListArrayOpt T.concatFails (run.map (·.arrayOf component)) = .ok r := by
  intro component hsome
  obtain ⟨pending, hpending⟩ := isSome_iff_exists.mp hsome
  have hcol := h.components component
  rw [hpending, map_some] at hcol
  unfold PendingColumns.intoChunk at hr
  rw [intoComponents_eq] at hr
  cases hmade : (Assoc.toList columns.components).foldlM (intoComponentsStep T.concatFails) ∅ with
  | error overflow =>
    rw [hmade] at hr
    cases hr
  | ok made => exact foldlM_intoComponents_error _ ∅ hmade _ (mem_toList.mpr hcol)

theorem RunColumns.isChunkOf (h : RunColumns all first columns run) (hr : columns.intoChunk T id entityPath = .ok r) :
    ∃ chunk, r = .ok chunk ∧ IsChunkOf T.concatFails entityPath all first run chunk := by
  obtain ⟨chunk, hchunk, hof⟩ := h.intoChunk T id entityPath (h.arrays_ok hr)
  exact ⟨chunk, Except.ok.inj (hr.symm.trans hchunk), hof⟩

theorem RunColumns.uniform_of_agree (h : RunColumns all first columns run)
    (hr : columns.intoChunk T id entityPath = .ok r) (hagree : ∀ a ∈ run, ∀ b ∈ run, Agree a b)
    (hjoins : ∀ component, Joins T.concatFails component run) : Uniform T.concatFails run := by
  refine ⟨hagree, hjoins, @short_of_collects T.concatFails run ?_⟩
  intro row hmem component x hx
  have hsome : (row.arrayOf component).isSome := isSome_of_eq_some hx
  obtain ⟨result, hresult⟩ := h.arrays_ok hr component (h.covers row hmem component hsome)
  rcases arraysToListArrayOpt_cases T.concatFails (run.map (·.arrayOf component)) with
    ⟨-, hnone | hmixed | ⟨hne, hfails⟩⟩ | ⟨herror, -⟩ | ⟨a, -, ha⟩
  · exact absurd (List.mem_map.mpr ⟨row, hmem, hx⟩) (hnone x)
  · refine absurd ?_ hmixed
    intro y z hy hz
    obtain ⟨b, hb, hy⟩ := List.mem_map.mp hy
    obtain ⟨c, hc, hz⟩ := List.mem_map.mp hz
    exact (hagree b hb c hc).dataTypes component y z hy hz
  · rw [dense_arrayOf] at hne hfails
    rw [hjoins component hne] at hfails
    cases hfails
  · cases herror.symm.trans hresult
  · exact ⟨a, ha⟩

end

/-- Runs that come through whole. A run makes a chunk that reads back as the run if and only if its rows
agree on the types of their timelines and components, whose arrays are concatenated, and no component is
too long. -/
theorem RunColumns.faithful_iff (T : Traversal) (id : ChunkId) (entityPath : EntityPath)
    (h : RunColumns all first columns run) :
    (∃ chunk, columns.intoChunk T id entityPath = .ok (.ok chunk) ∧
      chunk.loggedRows = run.map (·.logged entityPath)) ↔ Uniform T.concatFails run := by
  constructor
  · intro hchunk
    obtain ⟨chunk, hr, heq⟩ := hchunk
    obtain ⟨chunk', hchunk', hof⟩ := h.isChunkOf hr
    cases hchunk'
    exact hof.uniform h heq
  · intro hu
    obtain ⟨chunk, hchunk, hof⟩ := h.intoChunk T id entityPath fun component _ => arraysToListArrayOpt_ok (hu.short component)
    exact ⟨chunk, hchunk, loggedRows_of_uniform hu h hof⟩

end

end PendingColumns

end Dalaran
