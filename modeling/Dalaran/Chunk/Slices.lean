import Dalaran.Chunk.Sorting

/-
  Slicing, filtering and taking the rows of a chunk (`slice.rs`).

  All of these build a chunk whose columns are the columns of another one, read at
  some of its row indices; `TakesRows` says so, column by column. The `filter` and
  `take` kernels copy, and keep a validity buffer only if a null is left.

  An index array without null entries is a list of indices. One that is out of
  range stops the `take` kernel; callers of `taken` here say that none is.

  Correspondence (Rust ↔ Lean):
    `dl_arrow_util::{filter_array, take_array}` ↔ `ListArray.filter`, `ListArray.take`
-/

namespace Dalaran

open List Option Assoc ListArray TimeColumn

/-! ## Columns -/

namespace ListArray

/-- The entries under the set bits of a mask, over a child array of their own. -/
def filter (a : ListArray) (mask : List Bool) : ListArray where
  dataType := a.dataType
  hasNulls := (Seq.select a.entries mask).any (!·.valid)
  front := []
  entries := Seq.select a.entries mask
  back := []
  dense h e he := by simpa using List.any_eq_false.mp h e he

/-- The entries at some indices, over a child array of their own. -/
def take (a : ListArray) (indices : List Nat) : ListArray where
  dataType := a.dataType
  hasNulls := (Seq.permute a.entries indices).any (!·.valid)
  front := []
  entries := Seq.permute a.entries indices
  back := []
  dense h e he := by simpa using List.any_eq_false.mp h e he

/-- The same offsets and values without a validity buffer. -/
def withoutNulls (a : ListArray) : ListArray where
  dataType := a.dataType
  hasNulls := false
  front := a.front
  entries := a.entries.map fun e => { e with valid := true }
  back := a.back
  dense _ e he := by
    obtain ⟨e', -, rfl⟩ := List.mem_map.mp he
    rfl

theorem filter_cells {a : ListArray} {mask : List Bool} (h : mask.length = a.len) :
    (a.filter mask).cells = Seq.permute a.cells (Seq.maskIndices 0 mask) := by
  have hentries : (a.filter mask).entries = Seq.permute a.entries (Seq.maskIndices 0 mask) :=
    Seq.select_eq_permute h
  simp [cells, hentries, Seq.permute, map_filterMap]

theorem take_cells (a : ListArray) (indices : List Nat) : (a.take indices).cells = Seq.permute a.cells indices := by
  simp [take, cells, Seq.permute, map_filterMap]

@[simp] theorem slice_cells (a : ListArray) (index len : Nat) :
    (a.slice index len).cells = (a.cells.drop index).take len := by
  simp [slice, cells]

theorem withoutNulls_cells {a : ListArray} (h : ∀ e ∈ a.entries, e.valid = true) :
    a.withoutNulls.cells = a.cells := by
  unfold cells withoutNulls
  rw [List.map_map]
  refine map_congr_left fun e he => ?_
  simp [ListEntry.cell, h e he]

end ListArray

namespace TimeColumn

/-- The times under the set bits of a mask. -/
def filtered (tc : TimeColumn) (mask : List Bool) : TimeColumn :=
  let isSorted := tc.isSorted || decide (mask.count true < 2)
  TimeColumn.new (if isSorted then some true else none) tc.timeline (Seq.select tc.times mask)

def taken (tc : TimeColumn) (indices : List Nat) : TimeColumn :=
  TimeColumn.new (some tc.isSorted) tc.timeline (Seq.permute tc.times indices)

end TimeColumn

/-! ## Chunks -/

namespace Chunk

/-- A slice of rows under a new id, over arrays it shares with the chunk. -/
def rowSlicedShallow (c : Chunk) (id : ChunkId) (sizeBytes : Nat) (index len : Nat) : Chunk :=
  if c.numRows ≤ index then c.emptied id sizeBytes
  else
    let len := min (index + len) c.numRows - index
    if len = 0 then c.emptied id sizeBytes
    else
      { c.rowSlicedDeep id sizeBytes index len with
        components := Assoc.map c.components fun _ column =>
          { column with listArray := column.listArray.slice index len } }

/-- At most one timeline is kept. -/
def timelineSliced (c : Chunk) (id : ChunkId) (sizeBytes : Nat) (timeline : TimelineName) : Chunk :=
  { c with
    id := id
    sizeBytes := sizeBytes
    timelines := Assoc.filterMap c.timelines fun name tc => if name = timeline then some tc else none }

def componentSliced (c : Chunk) (id : ChunkId) (sizeBytes : Nat) (component : ComponentIdentifier) : Chunk :=
  { c with
    id := id
    sizeBytes := sizeBytes
    components := Assoc.filterMap c.components fun k column => if k = component then some column else none }

/-- The listed components are kept, a missing one is passed over. -/
def componentsSliced (c : Chunk) (id : ChunkId) (sizeBytes : Nat) (componentsToKeep : List ComponentIdentifier) :
    Chunk :=
  { c with
    id := id
    sizeBytes := sizeBytes
    components := componentsToKeep.foldl (fun components component =>
      (c.components.lookup component).elim components fun column => components.insert component column) ∅ }

theorem componentsSliced_lookup (c : Chunk) (id : ChunkId) (sizeBytes : Nat)
    (componentsToKeep : List ComponentIdentifier) (k : ComponentIdentifier) :
    (c.componentsSliced id sizeBytes componentsToKeep).components.lookup k =
      if k ∈ componentsToKeep then c.components.lookup k else none := by
  unfold componentsSliced
  induction componentsToKeep using reverseRecOn with
  | nil => rfl
  | append_singleton keep component ih =>
    rw [foldl_append, foldl_cons, foldl_nil]
    cases hcolumn : c.components.lookup component with
    | none =>
      rw [elim_none, ih]
      by_cases hk : k = component
      · subst hk
        simp [hcolumn]
      · simp [hk]
    | some column =>
      rw [elim_some, lookup_insert_ite, ih]
      by_cases hk : k = component
      · subst hk
        simp [hcolumn]
      · simp [hk]

/-- The rows under the set bits of a mask, `none` when the mask has another length. -/
def filtered (env : Env) (k : Nat) (c : Chunk) (mask : List Bool) : Option (Chunk × Nat) :=
  if mask.length ≠ c.numRows then none
  else if c.isEmpty then some (c, k)
  else
    let id := env.newId k
    let numFiltered := mask.count true
    if numFiltered = 0 then some (c.emptied id (env.sizeBytes id), k + 1)
    else
      let rowIds := Seq.select c.rowIds mask
      some
        ({ id := id
           entityPath := c.entityPath
           sizeBytes := env.sizeBytes id
           isSorted := c.isSorted || decide (numFiltered < 2) || Seq.ascending rowIds
           rowIds := rowIds
           timelines := Assoc.map c.timelines fun _ tc => tc.filtered mask
           components := Assoc.map c.components fun _ column =>
             { column with listArray := column.listArray.filter mask } }, k + 1)

/-- The rows that are not null in a component, and whether any row had to be dropped to get there. -/
def densified (env : Env) (k : Nat) (c : Chunk) (componentPov : ComponentIdentifier) : Chunk × Bool × Nat :=
  if c.isEmpty then (c, false, k)
  else
    match c.components.lookup componentPov with
    | none => (c, false, k)
    | some pov =>
      if pov.listArray.hasNulls then
        let id := env.newId k
        let mask := pov.listArray.validity
        let rowIds := Seq.select c.rowIds mask
        ({ id := id
           entityPath := c.entityPath
           sizeBytes := env.sizeBytes id
           isSorted := c.isSorted || decide (mask.count true < 2) || Seq.ascending rowIds
           rowIds := rowIds
           timelines := Assoc.map c.timelines fun _ tc => tc.filtered mask
           components := Assoc.map c.components fun component column =>
             let filtered := column.listArray.filter mask
             { column with
               listArray := if component = componentPov then filtered.withoutNulls else filtered } },
          true, k + 1)
      else (c, false, k)

/-- The rows at some indices, all of them in range. -/
def taken (env : Env) (k : Nat) (c : Chunk) (indices : List Nat) : Chunk × Nat :=
  if c.isEmpty then (c, k)
  else
    let id := env.newId k
    if indices.isEmpty then (c.emptied id (env.sizeBytes id), k + 1)
    else
      let rowIds := Seq.permute c.rowIds indices
      ({ id := id
         entityPath := c.entityPath
         sizeBytes := env.sizeBytes id
         isSorted := c.isSorted || decide (indices.length < 2) || Seq.ascending rowIds
         rowIds := rowIds
         timelines := Assoc.map c.timelines fun _ tc => tc.taken indices
         components := Assoc.map c.components fun _ column =>
           { column with listArray := column.listArray.take indices } }, k + 1)

/-- The last row of each run of rows with one time; the last row of a static chunk. -/
def dedupedLatestOnIndex (env : Env) (k : Nat) (c : Chunk) (index : TimelineName) : Chunk × Nat :=
  if c.isEmpty then (c, k)
  else
    let id := env.newId k
    if c.isStatic then (c.rowSlicedShallow id (env.sizeBytes id) (c.numRows - 1) 1, k + 1)
    else
      match c.timelines.lookup index with
      | none => (c, k)
      | some tc =>
        let indices := Seq.runEnds 0 tc.times
        ({ id := id
           entityPath := c.entityPath
           sizeBytes := env.sizeBytes id
           isSorted := c.isSorted
           rowIds := Seq.permute c.rowIds indices
           timelines := Assoc.map c.timelines fun _ tc => tc.taken indices
           components := Assoc.map c.components fun _ column =>
             { column with listArray := column.listArray.take indices } }, k + 1)

/-! ## Rows at indices -/

/-- The columns of `s` are those of `c`, read at the given row indices. -/
structure TakesRows (s c : Chunk) (order : List Nat) : Prop where
  entityPath : s.entityPath = c.entityPath
  rowIds : s.rowIds = Seq.permute c.rowIds order
  times : ∀ name, (s.timelines.lookup name).map (·.times) =
    (c.timelines.lookup name).map fun tc => Seq.permute tc.times order
  cells : ∀ component, (s.components.lookup component).map (·.listArray.cells) =
    (c.components.lookup component).map fun column => Seq.permute column.listArray.cells order

variable {s c : Chunk} {order : List Nat}

theorem TakesRows.rows_eq (h : s.TakesRows c order) (hwf : c.WellFormed)
    (horder : ∀ i ∈ order, i < c.numRows) : s.rows = Seq.permute c.rows order := by
  apply ext_getElem?
  intro n
  rw [rows_getElem?, h.rowIds, Seq.permute_getElem? horder,
    Seq.permute_getElem? fun i hi => (rows_length c).symm ▸ horder i hi]
  cases hn : order[n]? with
  | none => rfl
  | some i =>
    simp only [bind_some, rows_getElem?]
    congr 1
    funext r
    refine Row.ext h.entityPath rfl ?_ ?_
    · funext name
      have hs := h.times name
      show (s.timelines.lookup name).bind (·.times[n]?) = (c.timelines.lookup name).bind (·.times[i]?)
      cases htc : c.timelines.lookup name with
      | none =>
        rw [htc] at hs
        rw [map_eq_none_iff.mp hs, bind_none, bind_none]
      | some tc =>
        rw [htc] at hs
        obtain ⟨tc', htc', htimes⟩ := map_eq_some_iff.mp hs
        have hlen : ∀ i ∈ order, i < tc.times.length := fun i hi =>
          (hwf.times_length _ _ htc).symm ▸ horder i hi
        rw [htc', bind_some, bind_some, htimes, Seq.permute_getElem? hlen, hn, bind_some]
    · funext component
      have hs := h.cells component
      show (s.components.lookup component).bind (fun column => (column.listArray.cells[n]?).join) =
        (c.components.lookup component).bind fun column => (column.listArray.cells[i]?).join
      cases hcol : c.components.lookup component with
      | none =>
        rw [hcol] at hs
        rw [map_eq_none_iff.mp hs, bind_none, bind_none]
      | some column =>
        rw [hcol] at hs
        obtain ⟨column', hcol', hcells⟩ := map_eq_some_iff.mp hs
        have hlen : ∀ i ∈ order, i < column.listArray.cells.length := fun i hi =>
          ((cells_length _).trans (hwf.cells_length _ _ hcol)).symm ▸ horder i hi
        rw [hcol', bind_some, bind_some, hcells, Seq.permute_getElem? hlen, hn, bind_some]

theorem takesRows_of_taken (hpath : s.entityPath = c.entityPath) (hids : s.rowIds = Seq.permute c.rowIds order)
    (htimes : s.timelines = Assoc.map c.timelines fun _ tc => tc.taken order)
    (hcells : ∀ component, (s.components.lookup component).map (·.listArray.cells) =
      (c.components.lookup component).map fun column => (column.listArray.take order).cells) :
    s.TakesRows c order := by
  refine ⟨hpath, hids, fun name => ?_, fun component => ?_⟩
  · rw [htimes, lookup_map, Option.map_map]
    rfl
  · rw [hcells]
    cases c.components.lookup component with
    | none => rfl
    | some column =>
      simp only [map_some]
      rw [take_cells]

theorem TakesRows.wf (h : s.TakesRows c order) (hwf : c.WellFormed)
    (horder : ∀ i ∈ order, i < c.numRows) (hsorted : s.isSorted = Seq.ascending s.rowIds)
    (htimes : ∀ name tc, s.timelines.lookup name = some tc → tc.WellFormed) : s.WellFormed := by
  have hnum : s.numRows = order.length := by
    rw [numRows, h.rowIds, Seq.permute_length horder]
  refine ⟨hsorted, fun name tc' htc' => ?_, htimes, fun component column' hcol' => ?_⟩
  · have hs := h.times name
    rw [htc', map_some] at hs
    obtain ⟨tc, htc, heq⟩ := map_eq_some_iff.mp hs.symm
    rw [hnum, ← heq, Seq.permute_length fun i hi => (hwf.times_length _ _ htc).symm ▸ horder i hi]
  · have hs := h.cells component
    rw [hcol', map_some] at hs
    obtain ⟨column, hcol, heq⟩ := map_eq_some_iff.mp hs.symm
    rw [hnum, ← cells_length, ← heq, Seq.permute_length fun i hi =>
      ((cells_length _).trans (hwf.cells_length _ _ hcol)).symm ▸ horder i hi]

/-! ## Row slices -/

theorem emptied_wf (c : Chunk) (id : ChunkId) (size : Nat) : (c.emptied id size).WellFormed := by
  refine ⟨rfl, fun name tc' h => ?_, fun name tc' h => ?_, fun component column' h => ?_⟩
  · rw [emptied, lookup_map] at h
    obtain ⟨tc, -, rfl⟩ := map_eq_some_iff.mp h
    rfl
  · rw [emptied, lookup_map] at h
    obtain ⟨tc, -, rfl⟩ := map_eq_some_iff.mp h
    apply new_wf
    · rintro b ⟨⟩
      rfl
    · exact fun t ht => absurd ht not_mem_nil
  · rw [emptied, lookup_map] at h
    obtain ⟨column, -, rfl⟩ := map_eq_some_iff.mp h
    rfl

theorem emptied_rows (c : Chunk) (id : ChunkId) (size : Nat) : (c.emptied id size).rows = [] := rfl

variable {i index len : Nat}

theorem lt_of_mem_range' (hle : index + len ≤ c.numRows) (hi : i ∈ List.range' index len) : i < c.numRows := by
  have := mem_range'_1.mp hi
  omega

theorem rowSlicedDeep_takesRows (hwf : c.WellFormed) (hpos : 0 < len) (hle : index + len ≤ c.numRows) (id : ChunkId)
    (size : Nat) :
    (c.rowSlicedDeep id size index len).TakesRows c (List.range' index len) := by
  rw [rowSlicedDeep_of_le hpos hle]
  refine ⟨rfl, (Seq.permute_range' hle).symm, fun name => ?_, fun component => ?_⟩
  · rw [lookup_map]
    cases htc : c.timelines.lookup name with
    | none => rfl
    | some tc =>
      have hlen : index + len ≤ tc.times.length := (hwf.times_length _ _ htc).symm ▸ hle
      simp only [map_some]
      rw [rowSliced_times hpos hlen, Seq.permute_range' hlen]
  · rw [lookup_map]
    cases hcol : c.components.lookup component with
    | none => rfl
    | some column =>
      have hlen : index + len ≤ column.listArray.cells.length := by
        rw [cells_length, hwf.cells_length _ _ hcol]
        exact hle
      simp only [map_some]
      rw [deepSlice_cells, Seq.permute_range' hlen]

theorem rowSlicedShallow_of_le (hpos : 0 < len) (hle : index + len ≤ c.numRows) (id : ChunkId)
    (size : Nat) : c.rowSlicedShallow id size index len =
      { c.rowSlicedDeep id size index len with
        components := Assoc.map c.components fun _ column =>
          { column with listArray := column.listArray.slice index len } } := by
  unfold rowSlicedShallow
  have h1 : ¬ c.numRows ≤ index := by omega
  have h2 : min (index + len) c.numRows - index = len := by omega
  have h3 : len ≠ 0 := by omega
  simp [h1, h2, h3]

theorem rowSlicedShallow_takesRows (hwf : c.WellFormed) (hpos : 0 < len) (hle : index + len ≤ c.numRows)
    (id : ChunkId) (size : Nat) :
    (c.rowSlicedShallow id size index len).TakesRows c (List.range' index len) := by
  have hdeep := rowSlicedDeep_takesRows hwf hpos hle id size
  rw [rowSlicedShallow_of_le hpos hle]
  refine ⟨hdeep.entityPath, hdeep.rowIds, hdeep.times, fun component => ?_⟩
  -- a shared slice has the cells of a deep one
  rw [← hdeep.cells component, rowSlicedDeep_of_le hpos hle, lookup_map, lookup_map]
  cases c.components.lookup component with
  | none => rfl
  | some column =>
    simp only [map_some]
    rw [slice_cells, deepSlice_cells]

theorem rowSlicedShallow_wf_of_le (hwf : c.WellFormed) (hpos : 0 < len) (hle : index + len ≤ c.numRows) (id : ChunkId)
    (size : Nat) :
    (c.rowSlicedShallow id size index len).WellFormed := by
  have hpiece := (rowSlicedDeep_pieceOf hwf hpos hle id size).wf
  apply (rowSlicedShallow_takesRows hwf hpos hle id size).wf hwf
  · exact fun i hi => lt_of_mem_range' hle hi
  · rw [rowSlicedShallow_of_le hpos hle]
    exact hpiece.isSorted_eq
  · rw [rowSlicedShallow_of_le hpos hle]
    exact hpiece.times_wf

theorem rowSlicedDeep_clamp (c : Chunk) (id : ChunkId) (size index len : Nat) :
    (c.numRows ≤ index ∨ len = 0) ∧ c.rowSlicedDeep id size index len = c.emptied id size ∧
        c.rowSlicedShallow id size index len = c.emptied id size ∨
      ∃ len', 0 < len' ∧ index + len' ≤ c.numRows ∧ len' = min (index + len) c.numRows - index ∧
        c.rowSlicedDeep id size index len = c.rowSlicedDeep id size index len' ∧
        c.rowSlicedShallow id size index len = c.rowSlicedShallow id size index len' := by
  by_cases hindex : c.numRows ≤ index
  · exact .inl ⟨.inl hindex, by rw [rowSlicedDeep, if_pos hindex], by rw [rowSlicedShallow, if_pos hindex]⟩
  · by_cases hlen : len = 0
    · have h0 : min (index + len) c.numRows - index = 0 := by omega
      refine .inl ⟨.inr hlen, ?_, ?_⟩
      · rw [rowSlicedDeep, if_neg hindex]
        exact if_pos h0
      · rw [rowSlicedShallow, if_neg hindex]
        exact if_pos h0
    · have hsame : min (index + (min (index + len) c.numRows - index)) c.numRows - index =
          min (index + len) c.numRows - index := by omega
      refine .inr ⟨min (index + len) c.numRows - index, by omega, by omega, rfl, ?_, ?_⟩
      · simp [rowSlicedDeep, hindex, hsame]
      · have hpos : 0 < min (index + len) c.numRows - index := by omega
        have hle : index + (min (index + len) c.numRows - index) ≤ c.numRows := by omega
        rw [rowSlicedShallow_of_le hpos hle]
        unfold rowSlicedShallow
        rw [if_neg hindex]
        exact if_neg (by omega)

theorem rowSliced_wf (hwf : c.WellFormed) (id : ChunkId) (size index len : Nat) :
    (c.rowSlicedDeep id size index len).WellFormed ∧ (c.rowSlicedShallow id size index len).WellFormed := by
  rcases rowSlicedDeep_clamp c id size index len with ⟨-, hdeep, hshallow⟩ |
    ⟨len', hpos, hle, -, hdeep, hshallow⟩
  · rw [hdeep, hshallow]
    exact ⟨emptied_wf c id size, emptied_wf c id size⟩
  · rw [hdeep, hshallow]
    exact ⟨(rowSlicedDeep_pieceOf hwf hpos hle id size).wf, rowSlicedShallow_wf_of_le hwf hpos hle id size⟩

theorem rowSlicedShallow_rows (hwf : c.WellFormed) (id : ChunkId) (size index len : Nat) :
    (c.rowSlicedShallow id size index len).rows = (c.rows.drop index).take len := by
  rcases rowSlicedDeep_clamp c id size index len with ⟨hnone, -, hshallow⟩ |
    ⟨len', hpos, hle, hlen, -, hshallow⟩
  · rw [hshallow, emptied_rows]
    rcases hnone with hindex | hlen
    · rw [drop_eq_nil_of_le (by rw [rows_length]; exact hindex), take_nil]
    · rw [hlen, take_zero]
  · have hle' : index + len' ≤ c.rows.length := by rwa [rows_length]
    rw [hshallow, (rowSlicedShallow_takesRows hwf hpos hle id size).rows_eq hwf
      fun i hi => lt_of_mem_range' hle hi, Seq.permute_range' hle']
    apply ext_getElem?
    intro n
    rw [List.getElem?_take, List.getElem?_take, List.getElem?_drop]
    by_cases hn : n < len'
    · rw [if_pos hn, if_pos (by omega)]
    · rw [if_neg hn]
      split
      · rw [List.getElem?_eq_none (by rw [rows_length]; omega)]
      · rfl

end Chunk

/-! ## Filters -/

variable {mask : List Bool}

theorem Seq.select_length {α : Type} {l : List α} (h : mask.length = l.length) :
    (Seq.select l mask).length = mask.count true := by
  have hlt : ∀ i ∈ Seq.maskIndices 0 mask, i < l.length := by
    intro i hi
    have := mem_range'_1.mp ((Seq.maskIndices_sublist 0 mask).subset hi)
    omega
  rw [Seq.select_eq_permute h, Seq.permute_length hlt, Seq.maskIndices_length]

theorem Seq.select_eq_filter {α : Type} (p : α → Bool) : ∀ {l : List α} {mask : List Bool},
    (∀ (i : Nat) a, l[i]? = some a → mask[i]? = some (p a)) → Seq.select l mask = l.filter p
  | [], mask, _ => by simp [Seq.select]
  | a :: l, mask, h => by
    have h0 : mask[0]? = some (p a) := h 0 a rfl
    cases mask with
    | nil => cases h0
    | cons bit mask =>
      obtain rfl : bit = p a := some.inj h0
      have ih : Seq.select l mask = l.filter p := Seq.select_eq_filter p fun i b hb => h (i + 1) b hb
      rw [Seq.select_cons, filter_cons, ih]

theorem Seq.keptFlag_eq {α : Type} [LinearOrder α] {l l' : List α} {flag : Bool} {n : Nat}
    (hflag : flag = Seq.ascending l) (hsub : l'.Sublist l) (hlen : l'.length = n) :
    (flag || decide (n < 2) || Seq.ascending l') = Seq.ascending l' := by
  have hkept : flag = true → Seq.ascending l' = true := fun h =>
    Seq.ascending_iff.mpr ((Seq.ascending_iff.mp (hflag.symm.trans h)).sublist hsub)
  have hshort : n < 2 → Seq.ascending l' = true := fun h => ascending_of_length_lt_two (hlen ▸ h)
  cases hasc : Seq.ascending l' with
  | true => simp
  | false =>
    have h1 : flag = false := by
      by_contra h
      exact absurd ((hkept (by simpa using h)).symm.trans hasc) (by simp)
    have h2 : ¬ n < 2 := fun h => absurd ((hshort h).symm.trans hasc) (by simp)
    simp [h1, h2]

namespace TimeColumn

variable {tc : TimeColumn}

theorem filtered_wf (hwf : tc.WellFormed) (hlen : mask.length = tc.times.length) :
    (tc.filtered mask).WellFormed := by
  have hsub := Seq.select_sublist tc.times mask
  have hflag := Seq.keptFlag_eq hwf.isSorted_eq hsub (Seq.select_length hlen)
  refine new_wf (fun b hb => ?_) fun t ht => hwf.temporal t (hsub.subset ht)
  split at hb
  · rename_i h
    obtain rfl : true = b := by simpa using hb
    rwa [h, Bool.true_or] at hflag
  · simp at hb

theorem taken_wf_iff (hwf : tc.WellFormed) (indices : List Nat) :
    (tc.taken indices).WellFormed ↔ tc.isSorted = Seq.ascending (Seq.permute tc.times indices) := by
  constructor
  · exact fun h => h.isSorted_eq
  · intro h
    refine new_wf (fun b hb => ?_) fun t ht => ?_
    · rw [← some.inj hb]
      exact h
    · obtain ⟨i, -, hi⟩ := mem_filterMap.mp ht
      exact hwf.temporal t (mem_of_getElem? hi)

end TimeColumn

namespace Chunk

variable {c s : Chunk} {env : Env} {k k' : Nat}

theorem lt_of_mem_maskIndices (hlen : mask.length = c.numRows) : ∀ i ∈ Seq.maskIndices 0 mask, i < c.numRows := by
  intro i hi
  have := mem_range'_1.mp ((Seq.maskIndices_sublist 0 mask).subset hi)
  omega

theorem filteredColumns_spec (hwf : c.WellFormed) (hlen : mask.length = c.numRows)
    (hpath : s.entityPath = c.entityPath) (hids : s.rowIds = Seq.select c.rowIds mask)
    (hsorted : s.isSorted = (c.isSorted || decide (mask.count true < 2) || Seq.ascending s.rowIds))
    (htimes : s.timelines = Assoc.map c.timelines fun _ tc => tc.filtered mask)
    (hcells : ∀ component, (s.components.lookup component).map (·.listArray.cells) =
      (c.components.lookup component).map fun column => (column.listArray.filter mask).cells) :
    s.WellFormed ∧ s.rows = Seq.select c.rows mask := by
  have htakes : s.TakesRows c (Seq.maskIndices 0 mask) := by
    refine ⟨hpath, hids.trans (Seq.select_eq_permute hlen), fun name => ?_, fun component => ?_⟩
    · rw [htimes, lookup_map]
      cases htc : c.timelines.lookup name with
      | none => rfl
      | some tc =>
        exact congrArg some (Seq.select_eq_permute (hlen.trans (hwf.times_length _ _ htc).symm))
    · rw [hcells]
      cases hcol : c.components.lookup component with
      | none => rfl
      | some column =>
        simp only [map_some]
        rw [filter_cells (hlen.trans (hwf.cells_length _ _ hcol).symm)]
  refine ⟨htakes.wf hwf (lt_of_mem_maskIndices hlen) ?_ fun name tc' htc' => ?_, ?_⟩
  · rw [hsorted, hids]
    exact Seq.keptFlag_eq hwf.isSorted_eq (Seq.select_sublist _ _) (Seq.select_length hlen)
  · rw [htimes, lookup_map] at htc'
    obtain ⟨tc, htc, rfl⟩ := map_eq_some_iff.mp htc'
    exact filtered_wf (hwf.times_wf _ _ htc) (hlen.trans (hwf.times_length _ _ htc).symm)
  · rw [htakes.rows_eq hwf (lt_of_mem_maskIndices hlen), ← Seq.select_eq_permute]
    rw [hlen, rows_length]

theorem filtered_wf (hwf : c.WellFormed) (h : c.filtered env k mask = some (s, k')) : s.WellFormed := by
  unfold filtered at h
  split at h
  · cases h
  · rename_i hlen
    split at h
    · obtain ⟨rfl, -⟩ := Prod.mk.inj (some.inj h)
      exact hwf
    · dsimp only at h
      split at h
      · obtain ⟨rfl, -⟩ := Prod.mk.inj (some.inj h)
        exact emptied_wf ..
      · obtain ⟨hs, -⟩ := Prod.mk.inj (some.inj h)
        refine (filteredColumns_spec (s := s) hwf (not_not.mp hlen) (by rw [← hs]) (by rw [← hs])
          (by rw [← hs]) (by rw [← hs]) fun component => ?_).1
        rw [← hs, lookup_map, Option.map_map]
        rfl

variable {component : ComponentIdentifier}

theorem validity_getElem? (hwf : c.WellFormed) {column : ComponentColumn}
    (hcol : c.components.lookup component = some column) {i : Nat} {row : Row} (hrow : c.rows[i]? = some row) :
    column.listArray.validity[i]? = some (row.cells component).isSome := by
  rw [rows_getElem?] at hrow
  obtain ⟨rowId, hid, rfl⟩ := map_eq_some_iff.mp hrow
  have hlt : i < column.listArray.cells.length := by
    rw [cells_length, hwf.cells_length _ _ hcol]
    exact (List.getElem?_eq_some_iff.mp hid).1
  show _ = some (c.cellAt i component).isSome
  rw [validity_eq_cells, List.getElem?_map, cellAt, hcol, bind_some, List.getElem?_eq_getElem hlt]
  rfl

theorem densified_spec (env : Env) (k : Nat) (hwf : c.WellFormed) {column : ComponentColumn}
    (hcol : c.components.lookup component = some column) :
    (c.densified env k component).1.WellFormed ∧
      (c.densified env k component).1.rows = c.rows.filter fun row => (row.cells component).isSome := by
  have hlen := hwf.cells_length _ _ hcol
  unfold densified
  by_cases hempty : c.isEmpty = true
  · rw [if_pos hempty]
    have hrows : c.rows = [] := by
      rw [← length_eq_zero_iff, rows_length]
      exact length_eq_zero_iff.mpr (List.isEmpty_iff.mp hempty)
    exact ⟨hwf, by rw [hrows]; rfl⟩
  · rw [if_neg hempty, hcol]
    dsimp only
    split
    · have hmask : column.listArray.validity.length = c.numRows := by
        rw [validity_length, hlen]
      -- the column itself has only valid entries left, so its validity buffer can go
      have hvalid : ∀ e ∈ (column.listArray.filter column.listArray.validity).entries, e.valid = true := by
        intro e he
        obtain ⟨i, hi, hbit⟩ := Seq.mem_select.mp he
        rw [ListArray.validity, List.getElem?_map, hi] at hbit
        exact some.inj hbit
      rw [← Seq.select_eq_filter _ fun i row hrow => validity_getElem? hwf hcol hrow]
      refine filteredColumns_spec hwf hmask rfl rfl rfl rfl fun k => ?_
      rw [lookup_map, Option.map_map]
      by_cases hk : k = component
      · rw [hk, hcol]
        simp only [map_some, Function.comp_apply, if_true]
        rw [withoutNulls_cells hvalid]
      · cases c.components.lookup k with
        | none => rfl
        | some other => simp only [map_some, Function.comp_apply, hk, if_false]
    · rename_i hnulls
      refine ⟨hwf, (filter_eq_self.mpr fun row hrow => ?_).symm⟩
      -- without a validity buffer every row has a cell
      obtain ⟨i, hi⟩ := mem_iff_getElem?.mp hrow
      have hbit := validity_getElem? hwf hcol hi
      rw [validity_all_of_nullCount (nullCount_of_dense (by simpa using hnulls)), List.getElem?_replicate] at hbit
      split at hbit
      · exact (some.inj hbit).symm
      · cases hbit

theorem densified_of_none (hcol : c.components.lookup component = none) :
    c.densified env k component = (c, false, k) := by
  unfold densified
  rw [hcol]
  split <;> rfl

theorem densified_wf (hwf : c.WellFormed) (component : ComponentIdentifier) :
    (c.densified env k component).1.WellFormed := by
  cases hcol : c.components.lookup component with
  | none =>
    rw [densified_of_none hcol]
    exact hwf
  | some column => exact (densified_spec env k hwf hcol).1

end Chunk

end Dalaran
